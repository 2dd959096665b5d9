import Bookkeeping.Calendar.Date

set_option autoImplicit false

/-! # Date ranges

A range of days with both ends included and either end open. Records may be undated, so a range
also says whether it takes those: a range made from bounds takes undated records when it has no
first day, and there are ranges of undated records only. -/

namespace Bookkeeping

/-- A range of days, and what it does with undated records. -/
structure DateRange where
  /-- The first day included; open when missing. -/
  first : Option Date
  /-- The last day included; open when missing. -/
  last : Option Date
  /-- Whether undated records are included. -/
  nullable : Bool
  /-- Whether only undated records are included. -/
  nullOnly : Bool
deriving DecidableEq

namespace DateRange

/-- The range that includes every record, dated or not. -/
def unconstrained : DateRange := ⟨none, none, true, false⟩

/-- The range between two optional days; it includes undated records when it has no first day. -/
def ofBounds (first last : Option Date) : DateRange := ⟨first, last, first.isNone, false⟩

/-- The range from one day to another. -/
def between (first last : Date) : DateRange := ofBounds (some first) (some last)

/-- Everything from a day on. -/
def since (first : Date) : DateRange := ofBounds (some first) none

/-- Everything up to a day, undated records included. -/
def upTo (last : Date) : DateRange := ofBounds none (some last)

/-- A single day. -/
def on (day : Date) : DateRange := between day day

/-- Undated records only. -/
def undated : DateRange := ⟨none, none, true, true⟩

instance : Inhabited DateRange := ⟨unconstrained⟩

/-- Whether the range includes a record of this date. -/
def contains (r : DateRange) : Option Date → Bool
  | none => r.nullable || r.nullOnly
  | some d => !r.nullOnly && r.first.all (· ≤ d) && r.last.all (d ≤ ·)

/-- Whether the range leaves both ends open, so that it reaches over all of history. -/
def isUnbounded (r : DateRange) : Bool :=
  !r.nullOnly && r.first.isNone && r.last.isNone

@[simp] theorem contains_unconstrained (date : Option Date) :
    unconstrained.contains date = true := by
  cases date <;> rfl

end DateRange

end Bookkeeping
