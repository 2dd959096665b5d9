import Bookkeeping.Decimal.Arithmetic
import Bookkeeping.Ledger.Chart
import Bookkeeping.Ledger.Voucher
import Bookkeeping.Query.Basic
import Bookkeeping.Query.Operator

set_option autoImplicit false

/-! # Filters on details

A filter for single details of vouchers. Missing parts accept anything; an empty content or
remark and the sub-title zero ask for a detail that has none. Funds are compared within the
tolerance.

Classes, titles, currencies, users and directions select whole account histories, so only
content, remark or fund bounds a filter. -/

namespace Bookkeeping

/-- The sign that a fund is required to have. -/
inductive Direction where
  | either
  | debit
  | credit
deriving DecidableEq, Repr

namespace Direction

instance : Inhabited Direction := ⟨either⟩

/-- The direction as a sign. -/
def toInt : Direction → Int
  | either => 0
  | debit => 1
  | credit => -1

/-- The direction of a sign. -/
def ofInt (i : Int) : Except QueryError Direction :=
  if i = 0 then .ok either
  else if i = 1 then .ok debit
  else if i = -1 then .ok credit
  else .error (.directionOutOfRange i)

/-- Whether a fund has the required sign. -/
def accepts (d : Direction) (fund : Decimal) : Bool :=
  match d with
  | either => true
  | debit => 0 < fund.coeff
  | credit => fund.coeff < 0

theorem ofInt_toInt (d : Direction) : ofInt d.toInt = .ok d := by
  cases d <;> rfl

end Direction

/-- A filter for single details. -/
structure DetailFilter where
  direction : Direction
  titleClass : Option TitleClass
  title : Option Int32
  /-- The sub-title; zero asks for none. -/
  subTitle : Option Int32
  content : Option String
  remark : Option String
  fund : Option Decimal
  currency : Option String
  user : Option String
deriving DecidableEq

namespace DetailFilter

/-- The filter that accepts every detail. -/
def wildcard : DetailFilter := ⟨.either, none, none, none, none, none, none, none, none⟩

instance : Inhabited DetailFilter := ⟨wildcard⟩

/-- Whether a sub-title is the wanted one; zero asks for none. -/
def acceptsSubTitle : Option Int32 → Option Int32 → Bool
  | none, _ => true
  | some wanted, subTitle => if wanted = 0 then subTitle.isNone else subTitle = some wanted

/-- Whether the filter accepts a detail. -/
def accepts (f : DetailFilter) (d : Detail) : Bool :=
  f.direction.accepts d.fund
    && acceptsSubTitle f.subTitle d.subTitle
    && f.titleClass.all (TitleClass.of? d.title = some ·)
    && acceptsValue f.title d.title
    && acceptsText f.content d.content
    && acceptsText f.remark d.remark
    && f.fund.all (d.fund.near ·)
    && acceptsValue f.currency d.currency
    && acceptsValue f.user d.user

instance : Filter DetailFilter Detail where
  isUnbounded f := f.content.isNone && f.remark.isNone && f.fund.isNone
  accepts := accepts

end DetailFilter

end Bookkeeping
