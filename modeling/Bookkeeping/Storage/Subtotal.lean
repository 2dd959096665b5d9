import Bookkeeping.Storage.Query
import Bookkeeping.Subtotal.Tree

set_option autoImplicit false

/-! # Stored subtotals

The stored forms of subtotal requests, of group keys, and of subtotal trees. Date levels are
named for their bucket sizes; the mode of a running balance is an object that names it and holds
its settings. -/

namespace Bookkeeping

open Json (Members)
open Json.Members (ofOption)

namespace Subtotal

/-! ## Requests -/

namespace Level

/-- All levels. -/
def all : List Level :=
  [.currency, .title, .subTitle, .content, .remark, .user] ++ Granularity.all.map date

/-- The name that a level is stored by. -/
def storedName : Level → String
  | currency => "currency"
  | title => "title"
  | subTitle => "sub_title"
  | content => "content"
  | remark => "remark"
  | user => "user"
  | date g => g.storedName

instance : Stored Level where
  toJson l := .text l.storedName
  ofJson? := choice? all storedName

end Level

/-- The name that a quantity is stored by. -/
def Gather.storedName : Gather → String
  | all => "all"
  | nonZero => "non_zero"
  | count => "count"
  | voucherCount => "voucher_count"

instance : Stored Gather where
  toJson g := .text g.storedName
  ofJson? := choice? [.all, .nonZero, .count, .voucherCount] Gather.storedName

instance : Stored SeriesMode where
  toJson
    | .none => .object [("mode", .text "none")]
    | .changedDay => .object [("mode", .text "changed_day")]
    | .everyDay range interval => .object
        [("mode", .text "every_day"), ("range", toJson range), ("interval", toJson interval)]
  ofJson? j := do
    let (mode, settings) ← tagged? "mode" j
    if mode = "every_day" then
      let o ← settings.record? ["range", "interval"]
      return .everyDay (← o.fieldD "range" .unconstrained) (← o.fieldD "interval" .day)
    else
      let _ ← settings.record? []
      if mode = "none" then return .none
      else if mode = "changed_day" then return .changedDay
      else Option.none

instance : Stored Conversion where
  toJson c := .object [("currency", toJson c.currency), ("date", toJson c.date)]
  ofJson? j := do
    let o ← j.record? ["currency", "date"]
    return ⟨← o.fieldD "currency" homeCurrency, ← o.field? "date"⟩

instance : Stored Spec where
  toJson s := .object <|
    ofOption "levels" s.levels ++ [("gather", toJson s.gather), ("aggregation", toJson s.series)]
      ++ ofOption "equivalence" s.conversion
  ofJson? j := do
    let o ← j.record? ["levels", "gather", "aggregation", "equivalence"]
    return ⟨← o.field? "levels", ← o.fieldD "gather" .all, ← o.fieldD "aggregation" .none,
      ← o.field? "equivalence"⟩

/-! ## Keys and trees -/

namespace Key

/-- The name of the level that a key is stored under. -/
def storedLevel : Key → String
  | root => "root"
  | currency _ => "currency"
  | title _ => "title"
  | subTitle _ => "sub_title"
  | content _ => "content"
  | remark _ => "remark"
  | user _ => "user"
  | date _ => "date"

/-- The stored value of a key; the group of everything has none. -/
def storedValue? : Key → Option Json
  | root => none
  | currency s | user s => some (toJson s)
  | title t => some (toJson t)
  | subTitle t => some (toJson t)
  | content s | remark s => some (toJson s)
  | date d => some (toJson d)

instance : Stored Key where
  toJson k := .object <|
    ("level", .text k.storedLevel) :: k.storedValue?.toList.map fun j => ("value", j)
  ofJson? j := do
    let o ← j.members?
    let level : String ← o.field "level"
    if level = "root" then return root
    else if level = "currency" then return currency (← o.field "value")
    else if level = "title" then return title (← o.field "value")
    else if level = "sub_title" then return subTitle (← o.field "value")
    else if level = "content" then return content (← o.field "value")
    else if level = "remark" then return remark (← o.field "value")
    else if level = "user" then return user (← o.field "value")
    else if level = "date" then return date (← o.field "value")
    else none

end Key

/-- The stored form of a reading. -/
def readingToJson (r : Reading) : Json :=
  .object [("date", toJson r.date), ("fund", toJson r.fund)]

/-- The member for a list, left out where the list is empty. -/
def listMember (name : String) (items : List Json) : Members :=
  if items.isEmpty then [] else [(name, .array items)]

mutual

/-- The stored form of a tree; empty lists are left out. -/
def Tree.toJson : Tree → Json
  | ⟨key, fund, children, readings⟩ => .object <|
      [("key", Stored.toJson key), ("fund", Stored.toJson fund)]
        ++ listMember "children" (Tree.listToJson children)
        ++ listMember "readings" (readings.map readingToJson)

/-- The stored forms of trees. -/
def Tree.listToJson : List Tree → List Json
  | [] => []
  | t :: rest => t.toJson :: Tree.listToJson rest

end

end Subtotal

instance : Stored GroupedQuery where
  toJson q := .object [("query", toJson q.query), ("subtotal", toJson q.subtotal)]
  ofJson? j := do
    let o ← j.record? ["query", "subtotal"]
    return ⟨← o.fieldD "query" .everything, ← o.fieldD "subtotal" default⟩

end Bookkeeping
