import Bookkeeping.Calendar.DateText

set_option autoImplicit false

/-! # Calendar buckets

Dates are grouped into buckets of a day, a week, a month, a year, or a monthly cycle, and a
bucket is named by its first day. The cycles of billing and financial months are anchored on a
day of the month: a date past the anchor belongs to the next anchor, a date before it to the
previous one, and the anchor is a bucket of its own.

`start` finds the bucket of a date, `step?` walks from one bucket to the next, and `lastDay` ends
the window between the two. The undated records form a bucket too, which only has a label. -/

namespace Bookkeeping

/-- The size of a calendar bucket. -/
inductive Granularity where
  | day
  | week
  | month
  | year
  | billingMonth
  | financialMonth
deriving DecidableEq, Repr

namespace Granularity

instance : Inhabited Granularity := ⟨day⟩

/-- The day of the month that billing months are anchored on. -/
abbrev billingAnchor : Nat := 9

/-- The day of the month that financial months are anchored on. -/
abbrev financialAnchor : Nat := 19

/-- The anchor that a date belongs to. At either end of the calendar, where that anchor is
    missing, the date stands for itself. -/
def cycleStart (anchor : Nat) (d : Date) : Date :=
  match d.withDay? anchor with
  | none => d
  | some anchored =>
      if d.day = anchor then d
      else (anchored.addMonths? (if anchor < d.day then 1 else -1)).getD d

/-- The bucket of a date. -/
def start (g : Granularity) (d : Date) : Date :=
  match g with
  | .day => d
  | .week => (d.before? d.daysAfterMonday).getD d
  | .month => (d.withDay? 1).getD d
  | .year => (Date.ofParts? d.year 1 1).getD d
  | .billingMonth => cycleStart billingAnchor d
  | .financialMonth => cycleStart financialAnchor d

/-- The bucket after a bucket, none past the end of the calendar. -/
def step? (g : Granularity) (bucket : Date) : Option Date :=
  match g with
  | .day => bucket.next?
  | .week => bucket.later? 7
  | .month | .billingMonth | .financialMonth => bucket.addMonths? 1
  | .year => bucket.addMonths? 12

/-- The last day before the next bucket; the last day of the calendar if there is none. -/
def lastDay (g : Granularity) (bucket : Date) : Date :=
  ((g.step? bucket).bind Date.prev?).getD Date.last

/-- The label of the undated bucket, and of missing texts where they need one. -/
def undatedLabel : String := "[null]"

/-- The label of a bucket: its date without separators, up to the month or year where the
    bucket is one. -/
def label (g : Granularity) : Option Date → String
  | none => undatedLabel
  | some d => String.ofList (
      Date.yearChars d.year ++
        match g with
        | .year => []
        | .month => Text.fixedDigits 2 d.month
        | _ => Text.fixedDigits 2 d.month ++ Text.fixedDigits 2 d.day)

end Granularity

end Bookkeeping
