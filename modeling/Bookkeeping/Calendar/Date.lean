set_option autoImplicit false

/-! # Calendar dates

Days of the proleptic Gregorian calendar, which runs without a gap from the first day of the
year -262143 to the last day of the year 262142; the year 0 exists. A `Date` carries the proof
that it is a day of this calendar, so the operations that may leave it (`next?`, `prev?`,
`addMonths?`) answer with an option.

Dates are ordered through `key`, a number in which a year has twelve months and a month 31
places; `dayNumber` counts the days themselves and gives the day of the week. -/

namespace Bookkeeping

namespace Date

/-- The first year of the calendar. -/
abbrev firstYear : Int := -262143

/-- The last year of the calendar. -/
abbrev lastYear : Int := 262142

/-- Every fourth year is a leap year, except the full centuries that 400 does not divide. -/
def isLeapYear (year : Int) : Bool :=
  year % 4 == 0 && (year % 100 != 0 || year % 400 == 0)

/-- The number of days of a month; none outside the twelve months. -/
def daysInMonth (year : Int) (month : Nat) : Nat :=
  match month with
  | 1 => 31
  | 2 => if isLeapYear year then 29 else 28
  | 3 => 31
  | 4 => 30
  | 5 => 31
  | 6 => 30
  | 7 => 31
  | 8 => 31
  | 9 => 30
  | 10 => 31
  | 11 => 30
  | 12 => 31
  | _ => 0

/-- Whether the parts name a day of the calendar. -/
def IsValid (year : Int) (month day : Nat) : Prop :=
  firstYear ≤ year ∧ year ≤ lastYear ∧ 1 ≤ day ∧ day ≤ daysInMonth year month

instance (year : Int) (month day : Nat) : Decidable (IsValid year month day) :=
  inferInstanceAs (Decidable (_ ∧ _ ∧ _ ∧ _))

end Date

/-- A day of the calendar. -/
structure Date where
  year : Int
  month : Nat
  day : Nat
  valid : Date.IsValid year month day
deriving DecidableEq

namespace Date

/-- The day with the given parts, if the calendar has it. -/
def ofParts? (year : Int) (month day : Nat) : Option Date :=
  if h : IsValid year month day then some ⟨year, month, day, h⟩ else none

/-- The last day of the calendar. -/
def last : Date := ⟨lastYear, 12, 31, by decide⟩

/-! ## Order -/

/-- A number that grows with the date. -/
def key (d : Date) : Int :=
  (d.year * 12 + d.month) * 32 + d.day

instance : LT Date := ⟨fun a b => a.key < b.key⟩

instance : LE Date := ⟨fun a b => a.key ≤ b.key⟩

instance (a b : Date) : Decidable (a < b) := inferInstanceAs (Decidable (a.key < b.key))

instance (a b : Date) : Decidable (a ≤ b) := inferInstanceAs (Decidable (a.key ≤ b.key))

instance : Ord Date := ⟨fun a b => compare a.key b.key⟩

/-- The earlier of two dates. -/
def earlier (a b : Date) : Date :=
  if a ≤ b then a else b

theorem lt_def (a b : Date) : a < b ↔ a.key < b.key := Iff.rfl

theorem le_def (a b : Date) : a ≤ b ↔ a.key ≤ b.key := Iff.rfl

theorem daysInMonth_le (year : Int) (month : Nat) : daysInMonth year month ≤ 31 := by
  unfold daysInMonth
  split
  case h_2 => split <;> decide
  all_goals decide

theorem month_of_daysInMonth_pos {year : Int} {month : Nat} (h : 0 < daysInMonth year month) :
    1 ≤ month ∧ month ≤ 12 := by
  unfold daysInMonth at h
  split at h <;> simp at h ⊢

theorem month_pos (d : Date) : 1 ≤ d.month :=
  (month_of_daysInMonth_pos (Nat.le_trans d.valid.2.2.1 d.valid.2.2.2)).1

theorem month_le (d : Date) : d.month ≤ 12 :=
  (month_of_daysInMonth_pos (Nat.le_trans d.valid.2.2.1 d.valid.2.2.2)).2

theorem day_pos (d : Date) : 1 ≤ d.day := d.valid.2.2.1

theorem day_le (d : Date) : d.day ≤ 31 :=
  Nat.le_trans d.valid.2.2.2 (daysInMonth_le d.year d.month)

theorem key_injective {a b : Date} (h : a.key = b.key) : a = b := by
  have ha := a.month_pos
  have ha' := a.month_le
  have hb := b.month_pos
  have hb' := b.month_le
  have da := a.day_pos
  have da' := a.day_le
  have db := b.day_pos
  have db' := b.day_le
  obtain ⟨ya, ma, dda, va⟩ := a
  obtain ⟨yb, mb, ddb, vb⟩ := b
  simp only [key] at *
  have hd : dda = ddb := by omega
  have hm : ma = mb := by omega
  have hy : ya = yb := by omega
  subst hd hm hy
  rfl

/-! ## Neighbouring days and months -/

/-- The next day, none past the last one. -/
def next? (d : Date) : Option Date :=
  ofParts? d.year d.month (d.day + 1) <|> ofParts? d.year (d.month + 1) 1
    <|> ofParts? (d.year + 1) 1 1

/-- The previous day, none before the first one. -/
def prev? (d : Date) : Option Date :=
  if 1 < d.day then ofParts? d.year d.month (d.day - 1)
  else if 1 < d.month then ofParts? d.year (d.month - 1) (daysInMonth d.year (d.month - 1))
  else ofParts? (d.year - 1) 12 31

/-- The day `n` days later. -/
def later? (d : Date) : Nat → Option Date
  | 0 => some d
  | n + 1 => d.next?.bind fun e => e.later? n

/-- The day `n` days before. -/
def before? (d : Date) : Nat → Option Date
  | 0 => some d
  | n + 1 => d.prev?.bind fun e => e.before? n

/-- The same day of the month, `n` months on (back where `n` is negative). In a month that is
    too short it is the last day. -/
def addMonths? (d : Date) (n : Int) : Option Date :=
  let months := d.year * 12 + (d.month - 1) + n
  let year := months / 12
  let month := (months % 12).toNat + 1
  ofParts? year month (min d.day (daysInMonth year month))

/-- Another day of the same month. -/
def withDay? (d : Date) (day : Nat) : Option Date :=
  ofParts? d.year d.month day

theorem ofParts?_eq_some {year : Int} {month day : Nat} {d : Date}
    (h : ofParts? year month day = some d) : d.year = year ∧ d.month = month ∧ d.day = day := by
  unfold ofParts? at h
  split at h
  · injection h with h
    subst h
    exact ⟨rfl, rfl, rfl⟩
  · contradiction

/-! ## Days of the week -/

/-- The number of days of the year before a month. -/
def daysBeforeMonth (year : Int) : Nat → Nat
  | 0 => 0
  | month + 1 => daysBeforeMonth year month + daysInMonth year month

/-- The number of a day, counted from the first day of the year 1. -/
def dayNumber (d : Date) : Int :=
  let years := d.year - 1
  365 * years + years / 4 - years / 100 + years / 400 + daysBeforeMonth d.year d.month + d.day

/-- How many days the date is after a Monday. The first day of the year 1 is a Monday. -/
def daysAfterMonday (d : Date) : Nat :=
  ((d.dayNumber - 1) % 7).toNat

end Date

end Bookkeeping
