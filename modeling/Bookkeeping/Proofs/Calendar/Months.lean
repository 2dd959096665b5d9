import Bookkeeping.Proofs.Calendar.Days

set_option autoImplicit false

/-! # Counting months

The months of the calendar are numbered without a gap, so the month before January is December of
the year before. Every month has a day 28, so with a day up to that going `n` months on or back
means nothing but adding or subtracting `n`, as long as the calendar has that month. -/

namespace Bookkeeping

namespace Date

/-- The number of a month, counted from January of the year 0. -/
def monthNumber (d : Date) : Int := d.year * 12 + d.month - 1

theorem firstMonth_le (d : Date) : firstYear * 12 ≤ d.monthNumber := by
  have hyear := d.valid.1
  have hmonth := d.month_pos
  unfold monthNumber
  omega

theorem le_lastMonth (d : Date) : d.monthNumber ≤ lastYear * 12 + 11 := by
  have hyear := d.valid.2.1
  have hmonth := d.month_le
  unfold monthNumber
  omega

/-- Days with the same number in their months are in the order of the months. -/
theorem lt_iff_monthNumber {d e : Date} (hday : d.day = e.day) :
    d < e ↔ d.monthNumber < e.monthNumber := by
  rw [lt_def]
  unfold key monthNumber
  omega

theorem eq_of_monthNumber {d e : Date} (hmonth : d.monthNumber = e.monthNumber)
    (hday : d.day = e.day) : d = e := by
  refine key_injective ?_
  unfold monthNumber at hmonth
  unfold key
  omega

/-- The day with a number up to 28 in a month of the calendar. -/
theorem exists_monthNumber {month : Int} {day : Nat} (hlow : firstYear * 12 ≤ month)
    (hhigh : month ≤ lastYear * 12 + 11) (hfirst : 1 ≤ day) (hlast : day ≤ 28) :
    ∃ d : Date, d.monthNumber = month ∧ d.day = day := by
  have hlength : 28 ≤ daysInMonth (month / 12) ((month % 12).toNat + 1) :=
    le_daysInMonth (by omega) (by omega)
  refine ⟨⟨month / 12, (month % 12).toNat + 1, day, by omega, by omega, hfirst, by omega⟩, ?_, rfl⟩
  simp only [monthNumber]
  omega

theorem addMonths?_eq_some_iff {d e : Date} {n : Int} (hday : d.day ≤ 28) :
    d.addMonths? n = some e ↔ e.monthNumber = d.monthNumber + n ∧ e.day = d.day := by
  constructor
  · intro h
    obtain ⟨hy, hm, hd⟩ := ofParts?_eq_some h
    have hlength : 28 ≤ daysInMonth e.year e.month := le_daysInMonth e.month_pos e.month_le
    rw [← hy, ← hm] at hd
    unfold monthNumber
    omega
  · rintro ⟨hmonth, hd⟩
    have hfirst := e.month_pos
    have hlast := e.month_le
    have hlength : 28 ≤ daysInMonth e.year e.month := le_daysInMonth hfirst hlast
    unfold monthNumber at hmonth
    have hyear : (d.year * 12 + (d.month - 1) + n) / 12 = e.year := by omega
    have hmonth' : ((d.year * 12 + (d.month - 1) + n) % 12).toNat + 1 = e.month := by omega
    have hday' : min d.day (daysInMonth e.year e.month) = e.day := by omega
    simp only [addMonths?, hyear, hmonth', hday']
    exact dif_pos e.valid

theorem addMonths?_eq_none_iff {d : Date} {n : Int} (hday : d.day ≤ 28) :
    d.addMonths? n = none ↔
      d.monthNumber + n < firstYear * 12 ∨ lastYear * 12 + 11 < d.monthNumber + n := by
  constructor
  · intro h
    by_cases hwithin : firstYear * 12 ≤ d.monthNumber + n ∧ d.monthNumber + n ≤ lastYear * 12 + 11
    · obtain ⟨e, he⟩ := exists_monthNumber hwithin.1 hwithin.2 d.day_pos hday
      rw [(addMonths?_eq_some_iff hday).2 he] at h
      cases h
    · omega
  · intro h
    refine Option.eq_none_iff_forall_ne_some.2 fun e he => ?_
    have hmonth := ((addMonths?_eq_some_iff hday).1 he).1
    have hlow := e.firstMonth_le
    have hhigh := e.le_lastMonth
    omega

theorem withDay?_eq_some_iff {d e : Date} {day : Nat} :
    d.withDay? day = some e ↔ e.monthNumber = d.monthNumber ∧ e.day = day := by
  have hfirst := d.month_pos
  have hlast := d.month_le
  have hfirst' := e.month_pos
  have hlast' := e.month_le
  constructor
  · intro h
    obtain ⟨hy, hm, hd⟩ := ofParts?_eq_some h
    exact ⟨by rw [monthNumber, hy, hm]; rfl, hd⟩
  · rintro ⟨hmonth, rfl⟩
    unfold monthNumber at hmonth
    have hyear : d.year = e.year := by omega
    have hmonth' : d.month = e.month := by omega
    rw [withDay?, hyear, hmonth']
    exact dif_pos e.valid

/-- Whether a day lies in the month right before that of another one. -/
def IsInMonthBefore (d e : Date) : Prop :=
  d.year = e.year ∧ d.month + 1 = e.month ∨ d.year + 1 = e.year ∧ d.month = 12 ∧ e.month = 1

theorem isInMonthBefore_iff {d e : Date} :
    d.IsInMonthBefore e ↔ d.monthNumber + 1 = e.monthNumber := by
  have hfirst := d.month_pos
  have hlast := d.month_le
  have hfirst' := e.month_pos
  have hlast' := e.month_le
  unfold IsInMonthBefore monthNumber
  omega

end Date

end Bookkeeping
