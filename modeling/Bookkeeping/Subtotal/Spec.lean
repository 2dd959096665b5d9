import Bookkeeping.Calendar.Granularity
import Bookkeeping.Calendar.Range
import Bookkeeping.Ledger.Voucher
import Bookkeeping.Query.Selection

set_option autoImplicit false

/-! # What a subtotal is asked for

A `Spec` names the levels that postings are grouped by, outermost first, the quantity that is
added up, whether the last level is read as a running balance, and the currency that amounts are
converted into beforehand. -/

namespace Bookkeeping.Subtotal

/-- One grouping level. -/
inductive Level where
  | currency
  | title
  | subTitle
  | content
  | remark
  | user
  | date (granularity : Granularity)
deriving DecidableEq, Repr

/-- The bucket size of a date level. -/
def Level.granularity? : Level → Option Granularity
  | date g => some g
  | _ => none

/-- The name of the field that groups of this level stand under in structured output. -/
def Level.fieldName : Level → String
  | currency => "currency"
  | title => "title"
  | subTitle => "subtitle"
  | content => "content"
  | remark => "remark"
  | user => "user"
  | date _ => "date"

/-- The levels of a specification that names none. -/
def defaultLevels : List Level := [.currency, .title, .subTitle, .user, .content]

/-- The levels of a specification that names none but converts currencies. -/
def defaultConvertedLevels : List Level := [.title, .subTitle, .user, .content]

/-- The quantity that a subtotal reports. -/
inductive Gather where
  /-- The sum of funds, groups that come to nothing included. -/
  | all
  /-- The sum of funds, groups that come to nothing dropped. -/
  | nonZero
  /-- The number of postings. -/
  | count
  /-- The number of distinct vouchers. -/
  | voucherCount
deriving DecidableEq, Repr

instance : Inhabited Gather := ⟨.all⟩

/-- Whether the quantity is a number of things and not a fund. -/
def Gather.isCount : Gather → Bool
  | count | voucherCount => true
  | all | nonZero => false

/-- How the last level is turned into a running balance. -/
inductive SeriesMode where
  /-- Not at all. -/
  | none
  /-- One reading for every day that the balance changed. -/
  | changedDay
  /-- One reading for every bucket of a range. -/
  | everyDay (range : DateRange) (interval : Granularity)
deriving DecidableEq

instance : Inhabited SeriesMode := ⟨.none⟩

/-- The bucket size of the readings, if there are any. -/
def SeriesMode.interval? : SeriesMode → Option Granularity
  | none => .none
  | changedDay => some .day
  | everyDay _ interval => some interval

/-- A conversion into one currency, at the rates of a date or else of each posting's own. -/
structure Conversion where
  currency : String
  date : Option Date
deriving DecidableEq

instance : Inhabited Conversion := ⟨homeCurrency, none⟩

/-- A request for a subtotal. -/
structure Spec where
  /-- The levels, outermost first; the default ones if missing. -/
  levels : Option (List Level)
  gather : Gather
  series : SeriesMode
  conversion : Option Conversion
deriving DecidableEq

namespace Spec

instance : Inhabited Spec := ⟨⟨none, .all, .none, none⟩⟩

/-- The request for sums of funds on given levels. -/
def ofLevels (levels : List Level) : Spec := ⟨some levels, .all, .none, none⟩

/-- The levels that are in effect. -/
def effectiveLevels (s : Spec) : List Level :=
  match s.levels, s.conversion with
  | some levels, _ => levels
  | none, none => defaultLevels
  | none, some _ => defaultConvertedLevels

/-- Whether groups that come to nothing are dropped. The days on which a balance changed are
    worth reading even when it ends at nothing. -/
def prunes (s : Spec) : Bool :=
  s.gather = .nonZero && s.series ≠ .changedDay

end Spec

end Bookkeeping.Subtotal

namespace Bookkeeping

/-- A query for postings with the subtotal to be made of them. -/
structure GroupedQuery where
  query : PostingQuery
  subtotal : Subtotal.Spec
deriving DecidableEq

instance : Inhabited GroupedQuery := ⟨default, default⟩

end Bookkeeping
