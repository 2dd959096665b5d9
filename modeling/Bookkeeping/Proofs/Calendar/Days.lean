import Bookkeeping.Calendar.Walk

set_option autoImplicit false

/-! # Counting days

The day before a day and the day after it undo one another, and no day lies between them. So every
day is reached from any earlier one by going on day by day, `exists_later?_of_le`, and the number of
a day grows by one with every step. Hence day numbers are in the order of the days, and going `n`
days on or back means nothing but adding or subtracting `n`, as long as the calendar has the day. -/

namespace Bookkeeping

namespace Date

/-! ## The day before -/

theorem lt_of_prev? {d e : Date} (h : e.prev? = some d) : d < e := by
  have hd := d.day_le
  have hd' := d.month_le
  have he := e.day_pos
  have he' := e.month_pos
  rw [lt_def]
  simp only [key]
  unfold prev? at h
  split at h
  · obtain ⟨hy, hm, hday⟩ := ofParts?_eq_some h
    rw [hy, hm, hday]
    omega
  · split at h
    · obtain ⟨hy, hm, _⟩ := ofParts?_eq_some h
      rw [hy, hm]
      omega
    · obtain ⟨hy, _, _⟩ := ofParts?_eq_some h
      rw [hy]
      omega

/-- No day lies between a day and the one before it. -/
theorem le_of_lt_of_prev? {d e p : Date} (h : e.prev? = some p) (hlt : d < e) : d ≤ p := by
  have hvalid := d.valid.2.2.2
  have hmonth := d.month_le
  have hday := d.day_le
  have hday' := d.day_pos
  have hmonth' := d.month_pos
  have hemonth := e.month_le
  have heday := e.day_pos
  have hemonth' := e.month_pos
  rw [lt_def] at hlt
  rw [le_def]
  simp only [key] at hlt ⊢
  unfold prev? at h
  split at h
  · obtain ⟨hy, hm, hp⟩ := ofParts?_eq_some h
    rw [hy, hm, hp]
    omega
  · next hfirst =>
      split at h
      · obtain ⟨hy, hm, hp⟩ := ofParts?_eq_some h
        rw [hy, hm, hp]
        -- in the month before, `d` is no later than its last day
        by_cases hsame : d.year = e.year ∧ d.month = e.month - 1
        · rw [hsame.1, hsame.2] at hvalid
          omega
        · omega
      · obtain ⟨hy, hm, hp⟩ := ofParts?_eq_some h
        rw [hy, hm, hp]
        omega

theorem le_last (d : Date) : d ≤ last := by
  have hyear := d.valid.2.1
  have hmonth := d.month_le
  have hday := d.day_le
  rw [le_def]
  simp only [key, last]
  omega

theorem le_daysInMonth {year : Int} {month : Nat} (hfirst : 1 ≤ month) (hlast : month ≤ 12) :
    28 ≤ daysInMonth year month := by
  unfold daysInMonth
  split
  case h_2 => split <;> decide
  case h_13 =>
      simp only [imp_false] at *
      omega
  all_goals decide

theorem daysInMonth_pos {year : Int} {month : Nat} (hfirst : 1 ≤ month) (hlast : month ≤ 12) :
    1 ≤ daysInMonth year month :=
  Nat.le_trans (by decide) (le_daysInMonth hfirst hlast)

/-- Only the first day of the calendar has none before it. -/
theorem exists_prev? {d e : Date} (h : d < e) : ∃ p, e.prev? = some p := by
  have hfirst := d.valid.1
  obtain ⟨hlow, hhigh, hpos, hle⟩ := e.valid
  have hmonth := e.month_le
  have hdmonth := d.month_pos
  have hdday := d.day_pos
  rw [lt_def] at h
  simp only [key] at h
  unfold prev? ofParts?
  split
  · exact ⟨_, dif_pos ⟨hlow, hhigh, by omega, by omega⟩⟩
  · split
    · exact ⟨_, dif_pos ⟨hlow, hhigh, daysInMonth_pos (by omega) (by omega), Nat.le_refl _⟩⟩
    · exact ⟨_, dif_pos ⟨by omega, by omega, by decide, Nat.le_refl 31⟩⟩

/-- The day after the day before is the day itself. -/
theorem next?_of_prev? {d e : Date} (h : e.prev? = some d) : d.next? = some e := by
  obtain ⟨hlow, hhigh, hpos, hle⟩ := e.valid
  have hwhole : ofParts? e.year e.month e.day = some e := dif_pos e.valid
  unfold prev? at h
  split at h
  · obtain ⟨hy, hm, hd⟩ := ofParts?_eq_some h
    have hday : e.day - 1 + 1 = e.day := by omega
    rw [next?, hy, hm, hd, hday, hwhole]
    rfl
  · next hday =>
      have hday : e.day = 1 := by omega
      split at h
      · -- a month after its last day goes on with the first day of the next one
        obtain ⟨hy, hm, hd⟩ := ofParts?_eq_some h
        have hmonth : e.month - 1 + 1 = e.month := by omega
        have hover : ofParts? e.year (e.month - 1) (daysInMonth e.year (e.month - 1) + 1) = none :=
          dif_neg fun hvalid => Nat.not_succ_le_self _ hvalid.2.2.2
        rw [hday] at hwhole
        rw [next?, hy, hm, hd, hover, hmonth, hwhole]
        rfl
      · next hmonth =>
          obtain ⟨hy, hm, hd⟩ := ofParts?_eq_some h
          have hfirst := e.month_pos
          have hmonth : e.month = 1 := by omega
          have hyear : e.year - 1 + 1 = e.year := by omega
          have hover : ofParts? (e.year - 1) 12 (31 + 1) = none :=
            dif_neg fun hvalid => absurd hvalid.2.2.2 (by decide : ¬ 32 ≤ 31)
          have hover' : ofParts? (e.year - 1) (12 + 1) 1 = none :=
            dif_neg fun hvalid => absurd hvalid.2.2.2 (by decide : ¬ 1 ≤ 0)
          rw [hday, hmonth] at hwhole
          rw [next?, hy, hm, hd, hover, hover', hyear, hwhole]
          rfl

theorem later?_add (d : Date) (m n : Nat) :
    d.later? (m + n) = (d.later? m).bind fun e => e.later? n := by
  induction m generalizing d with
  | zero => rw [Nat.zero_add, later?, Option.bind_some]
  | succ m ih =>
      rw [Nat.succ_add, later?, later?, Option.bind_assoc]
      exact congrArg _ (funext fun e => ih e)

/-- As many days on as one has gone back, one is where one was. -/
theorem later?_of_before? {d b : Date} {n : Nat} (h : d.before? n = some b) :
    b.later? n = some d := by
  induction n generalizing d with
  | zero =>
      cases h
      rfl
  | succ n ih =>
      obtain ⟨e, he, hb⟩ := Option.bind_eq_some_iff.1 h
      rw [later?_add, ih hb, Option.bind_some, later?, next?_of_prev? he]
      rfl

/-! ## Going on day by day -/

theorem le_of_later? {d e : Date} {n : Nat} (h : d.later? n = some e) : d ≤ e := by
  cases n with
  | zero =>
      cases h
      exact Int.le_refl _
  | succ n => exact Int.le_of_lt (lt_of_later? h)

/-- Every day is reached from any earlier one. -/
theorem exists_later?_of_le {d e : Date} (h : d ≤ e) : ∃ n, d.later? n = some e := by
  -- the induction is on how far `e` lies behind `d`, and goes on with the day before `e`
  induction hdistance : (e.key - d.key).toNat using Nat.strongRecOn generalizing e with
  | ind distance ih =>
      rcases Int.lt_or_eq_of_le h with hlt | heq
      · obtain ⟨p, hp⟩ := exists_prev? hlt
        have hbefore : p.key < e.key := lt_of_prev? hp
        have hle : d.key ≤ p.key := le_of_lt_of_prev? hp hlt
        obtain ⟨n, hn⟩ := ih _ (by omega) hle rfl
        refine ⟨n + 1, ?_⟩
        rw [later?_add, hn, Option.bind_some, later?, next?_of_prev? hp]
        rfl
      · exact ⟨0, congrArg some (key_injective heq)⟩

/-- The day before the day after is the day itself. -/
theorem prev?_of_next? {d e : Date} (h : d.next? = some e) : e.prev? = some d := by
  obtain ⟨p, hp⟩ := exists_prev? (lt_of_next? h)
  obtain ⟨n, hn⟩ := exists_later?_of_le (le_of_lt_of_prev? hp (lt_of_next? h))
  cases n with
  | zero =>
      cases hn
      exact hp
  | succ n =>
      -- going on from `d` leads to `e` first, which lies behind `p`
      rw [later?, h, Option.bind_some] at hn
      have hle : e.key ≤ p.key := le_of_later? hn
      exact absurd (lt_of_prev? hp) (Int.not_lt.2 hle)

/-! ## Day numbers -/

/-- Whether a year is a leap year, said of its remainders. -/
theorem isLeapYear_iff {year : Int} :
    isLeapYear year = true ↔ year % 4 = 0 ∧ (year % 100 ≠ 0 ∨ year % 400 = 0) := by
  simp [isLeapYear]

theorem daysBeforeMonth_december (year : Int) :
    daysBeforeMonth year 12 = if isLeapYear year then 335 else 334 := by
  simp only [daysBeforeMonth, daysInMonth]
  split <;> rfl

/-- The number of a day grows by one from each day to the next. -/
theorem dayNumber_of_prev? {d e : Date} (h : e.prev? = some d) :
    e.dayNumber = d.dayNumber + 1 := by
  have hmonth := e.month_pos
  have hday := e.day_pos
  unfold prev? at h
  split at h
  · obtain ⟨hy, hm, hd⟩ := ofParts?_eq_some h
    simp only [dayNumber, hy, hm, hd]
    omega
  · split at h
    · obtain ⟨hy, hm, hd⟩ := ofParts?_eq_some h
      obtain ⟨month, hsucc⟩ : ∃ month, e.month = month + 1 := ⟨e.month - 1, by omega⟩
      simp only [dayNumber, hy, hm, hd, hsucc, Nat.add_sub_cancel, daysBeforeMonth]
      omega
    · obtain ⟨hy, hm, hd⟩ := ofParts?_eq_some h
      have hfirst : e.month = 1 := by omega
      simp only [dayNumber, hy, hm, hd, hfirst, daysBeforeMonth_december]
      simp only [daysBeforeMonth, daysInMonth]
      -- the year before has a day more if it is a leap year
      by_cases hleap : isLeapYear (e.year - 1) = true
      · rw [if_pos hleap]
        have := isLeapYear_iff.1 hleap
        omega
      · rw [if_neg hleap]
        rw [isLeapYear_iff] at hleap
        omega

theorem dayNumber_of_later? {d e : Date} {n : Nat} (h : d.later? n = some e) :
    e.dayNumber = d.dayNumber + n := by
  induction n generalizing d with
  | zero =>
      cases h
      omega
  | succ n ih =>
      obtain ⟨f, hf, he⟩ := Option.bind_eq_some_iff.1 h
      have hnext := dayNumber_of_prev? (prev?_of_next? hf)
      have hrest := ih he
      omega

theorem dayNumber_le_of_le {d e : Date} (h : d ≤ e) : d.dayNumber ≤ e.dayNumber := by
  obtain ⟨n, hn⟩ := exists_later?_of_le h
  have hnumber := dayNumber_of_later? hn
  omega

/-- Day numbers are in the order of the days. -/
theorem lt_iff_dayNumber {d e : Date} : d < e ↔ d.dayNumber < e.dayNumber := by
  constructor
  · intro h
    obtain ⟨p, hp⟩ := exists_prev? h
    have hle := dayNumber_le_of_le (le_of_lt_of_prev? hp h)
    have hnumber := dayNumber_of_prev? hp
    omega
  · intro h
    refine Int.not_le.1 fun hle => ?_
    have hnumber : e.dayNumber ≤ d.dayNumber := dayNumber_le_of_le hle
    omega

theorem le_iff_dayNumber {d e : Date} : d ≤ e ↔ d.dayNumber ≤ e.dayNumber := by
  rw [← Int.not_lt, ← lt_iff_dayNumber]
  exact Int.not_lt.symm

theorem dayNumber_injective {d e : Date} (h : d.dayNumber = e.dayNumber) : d = e :=
  key_injective (Int.le_antisymm (le_iff_dayNumber.2 (Int.le_of_eq h))
    (le_iff_dayNumber.2 (Int.le_of_eq h.symm)))

theorem later?_eq_some_iff {d e : Date} {n : Nat} :
    d.later? n = some e ↔ e.dayNumber = d.dayNumber + n := by
  refine ⟨dayNumber_of_later?, fun h => ?_⟩
  obtain ⟨m, hm⟩ := exists_later?_of_le (le_iff_dayNumber.2 (by omega : d.dayNumber ≤ e.dayNumber))
  have hnumber := dayNumber_of_later? hm
  obtain rfl : m = n := by omega
  exact hm

theorem before?_eq_some_iff {d b : Date} {n : Nat} :
    d.before? n = some b ↔ d.dayNumber = b.dayNumber + n := by
  refine ⟨fun h => dayNumber_of_later? (later?_of_before? h), fun h => ?_⟩
  induction n generalizing d with
  | zero => exact congrArg some (dayNumber_injective (by omega))
  | succ n ih =>
      obtain ⟨p, hp⟩ := exists_prev? (lt_iff_dayNumber.2 (by omega : b.dayNumber < d.dayNumber))
      have hnumber := dayNumber_of_prev? hp
      rw [before?, hp, Option.bind_some]
      exact ih (by omega)

/-- Days between days of the calendar belong to it. -/
theorem exists_dayNumber {d e : Date} (number : Int) (hlow : d.dayNumber ≤ number)
    (hhigh : number ≤ e.dayNumber) : ∃ f : Date, f.dayNumber = number := by
  obtain ⟨n, hn⟩ := exists_later?_of_le
    (le_iff_dayNumber.2 (by omega : d.dayNumber ≤ e.dayNumber))
  have hnumber := dayNumber_of_later? hn
  obtain ⟨rest, hsplit⟩ : ∃ rest, n = (number - d.dayNumber).toNat + rest :=
    ⟨n - (number - d.dayNumber).toNat, by omega⟩
  rw [hsplit, later?_add] at hn
  obtain ⟨f, hf, -⟩ := Option.bind_eq_some_iff.1 hn
  have hreached := dayNumber_of_later? hf
  exact ⟨f, by omega⟩

end Date

end Bookkeeping
