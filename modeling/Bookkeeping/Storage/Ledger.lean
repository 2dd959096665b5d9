import Bookkeeping.Exchange.Rates
import Bookkeeping.Ledger.Chart
import Bookkeeping.Ledger.Voucher
import Bookkeeping.Storage.Basic

set_option autoImplicit false

/-! # Stored ledgers

The stored forms of vouchers and their details, of deferred items, of quotes, and of the entries
of a chart of accounts. -/

namespace Bookkeeping

open Json.Members (ofOption)

namespace VoucherKind

/-- All kinds of vouchers. -/
def all : List VoucherKind :=
  [.ordinary, .amortization, .annualCarry, .carry, .depreciation, .devalue, .uncertain]

/-- The name that a kind is stored by. -/
def storedName : VoucherKind → String
  | ordinary => "ordinary"
  | amortization => "amortization"
  | annualCarry => "annual_carry"
  | carry => "carry"
  | depreciation => "depreciation"
  | devalue => "devalue"
  | uncertain => "uncertain"

instance : Stored VoucherKind where
  toJson k := .text k.storedName
  ofJson? := choice? all storedName

end VoucherKind

instance : Stored Detail where
  toJson d := .object <|
    [("user", toJson d.user), ("currency", toJson d.currency), ("title", toJson d.title)]
      ++ ofOption "subtitle" d.subTitle ++ ofOption "content" d.content
      ++ ofOption "remark" d.remark ++ [("fund", toJson d.fund)]
  ofJson? j := do
    let o ← j.record? ["user", "currency", "title", "subtitle", "content", "remark",
      "fund"]
    return ⟨← o.fieldD "user" defaultUser, ← o.fieldD "currency" homeCurrency, ← o.field "title",
      ← o.field? "subtitle", ← o.field? "content", ← o.field? "remark", ← o.field "fund"⟩

instance : Stored Voucher where
  toJson v := .object <|
    ofOption "id" v.id ++ [("date", toJson v.date), ("type", toJson v.kind)]
      ++ ofOption "remark" v.remark ++ [("detail", toJson v.details)]
  ofJson? j := do
    let o ← j.record? ["id", "date", "type", "remark", "detail"]
    return ⟨← o.field? "id", ← o.field? "date", ← o.fieldD "type" .ordinary, ← o.field? "remark",
      ← o.fieldD "detail" []⟩

instance : Stored DeferredItem where
  toJson i := .object <|
    ofOption "id" i.id ++ ofOption "user" i.user ++ ofOption "name" i.name
      ++ ofOption "date" i.date ++ ofOption "value" i.value ++ ofOption "remark" i.remark
  ofJson? j := do
    let o ← j.record? ["id", "user", "name", "date", "value", "remark"]
    return ⟨← o.field? "id", ← o.field? "user", ← o.field? "name", ← o.field? "date",
      ← o.field? "value", ← o.field? "remark"⟩

instance : Stored Quote where
  toJson q := .object
    [("date", toJson q.date), ("base", toJson q.base), ("quote", toJson q.quote),
     ("price", toJson q.price)]
  ofJson? j := do
    let o ← j.record? ["date", "base", "quote", "price"]
    return ⟨← o.field "date", ← o.field "base", ← o.field "quote", ← o.field "price"⟩

/-- A rate table is kept as the list of its quotes. -/
def RateTable.ofJson? (j : Json) : Option RateTable :=
  (Stored.ofJson? j : Option (List Quote)).map RateTable.ofList

/-- An entry of a chart of accounts names one account. -/
def ChartOfAccounts.entryOfJson? (j : Json) : Option (Account × String) := do
  let o ← j.record? ["title", "subtitle", "name"]
  return (⟨← o.field "title", ← o.field? "subtitle"⟩, ← o.field "name")

/-- A chart of accounts is kept as the list of its entries. -/
def ChartOfAccounts.ofJson? (j : Json) : Option ChartOfAccounts := do
  return ofList (← (← j.items?).mapM entryOfJson?)

end Bookkeeping
