import Bookkeeping.Calendar.Date
import Bookkeeping.Decimal.Basic

set_option autoImplicit false

/-! # Vouchers

A voucher is one accounting entry: an optional date, a kind, a remark, and its details. Each
detail books a signed fund, debit positive and credit negative, on an account title and perhaps
a sub-title, in one currency and for one user.

A ledger is a list of vouchers. A voucher is told from an equal one by its place in the ledger,
so a `Posting`, a detail together with its voucher, keeps the places of both. -/

namespace Bookkeeping

/-- The currency of a detail that names none, and the one listed first. -/
def homeCurrency : String := "CNY"

/-- The user of a detail that names none, and the one listed first. -/
def defaultUser : String := "anonymous"

/-- The kind of a voucher. All but ordinary vouchers come from schedules, or wait to be
    classified. -/
inductive VoucherKind where
  | ordinary
  | amortization
  | annualCarry
  | carry
  | depreciation
  | devalue
  | uncertain
deriving DecidableEq, Repr

instance : Inhabited VoucherKind := ⟨.ordinary⟩

/-- One detail of a voucher. -/
structure Detail where
  user : String
  currency : String
  title : Int32
  subTitle : Option Int32
  content : Option String
  remark : Option String
  fund : Decimal
deriving DecidableEq

/-- A detail in the home currency for the default user. -/
def Detail.ofTitle (title : Int32) (fund : Decimal) : Detail :=
  ⟨defaultUser, homeCurrency, title, none, none, none, fund⟩

/-- An accounting entry. -/
structure Voucher where
  id : Option String
  date : Option Date
  kind : VoucherKind
  remark : Option String
  details : List Detail
deriving DecidableEq

/-- An ordinary voucher without date and details. -/
def Voucher.undated : Voucher := ⟨none, none, .ordinary, none, []⟩

/-- An ordinary voucher of a day, without details. -/
def Voucher.dated (date : Date) : Voucher := { Voucher.undated with date := some date }

/-- The vouchers of a set of books, in the order they were entered. -/
abbrev Ledger : Type := List Voucher

/-! ## Postings -/

/-- A detail together with its voucher, and the places of both. -/
structure Posting where
  voucher : Voucher
  /-- The place of the voucher in its ledger; it identifies the voucher. -/
  voucherPlace : Nat
  detail : Detail
  /-- The place of the detail in its voucher. -/
  detailPlace : Nat
deriving DecidableEq

/-- The date of a posting is that of its voucher. -/
def Posting.date (p : Posting) : Option Date := p.voucher.date

/-- The postings of the voucher at a place, in the order of its details. -/
def Voucher.postings (v : Voucher) (place : Nat) : List Posting :=
  v.details.zipIdx.map fun (detail, detailPlace) => ⟨v, place, detail, detailPlace⟩

/-! ## Deferred items -/

/-- What can be filtered on in an asset or an amortization. -/
structure DeferredItem where
  id : Option String
  user : Option String
  name : Option String
  date : Option Date
  value : Option Decimal
  remark : Option String
deriving DecidableEq

/-- An item about which nothing is known. -/
def DeferredItem.blank : DeferredItem := ⟨none, none, none, none, none, none⟩

/-- An item with a name. -/
def DeferredItem.named (name : String) : DeferredItem := { DeferredItem.blank with name := some name }

end Bookkeeping
