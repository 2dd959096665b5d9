import Bookkeeping.Proofs.Calendar.Tiling

set_option autoImplicit false

/-! # The dates of billing and financial months

A cycle collects the days of three months: its anchor, what lies past the anchor day in the month
before, and what lies before the anchor day in the month after, `IsInCycle`. Dates are not in the
order of their cycles, but every date is in one cycle only: counted in months, the anchor it belongs
to is one on, one back or none away, `monthsToAnchor`.

At either end of the calendar that anchor may be missing, `LacksAnchor`. Such a date is a bucket of
its own, and the only kind of bucket that begins on another day of the month. -/

namespace Bookkeeping

namespace Granularity

/-- Whether a date belongs to the cycle of an anchor. -/
def IsInCycle (anchor : Nat) (d anchored : Date) : Prop :=
  d = anchored ∨ d.IsInMonthBefore anchored ∧ anchor < d.day ∨
    anchored.IsInMonthBefore d ∧ d.day < anchor

/-- Whether the anchor of a date is outside the calendar: the date lies before the anchor day of
    the first month, or past that of the last one. -/
def LacksAnchor (anchor : Nat) (d : Date) : Prop :=
  d.year = Date.firstYear ∧ d.month = 1 ∧ d.day < anchor ∨
    d.year = Date.lastYear ∧ d.month = 12 ∧ anchor < d.day

/-- How many months after its own the anchor of a date lies. -/
def monthsToAnchor (anchor : Nat) (d : Date) : Int :=
  if d.day = anchor then 0 else if anchor < d.day then 1 else -1

section

variable {anchor : Nat} {d anchored : Date}

theorem isInCycle_iff (hday : anchored.day = anchor) :
    IsInCycle anchor d anchored ↔
      anchored.monthNumber = d.monthNumber + monthsToAnchor anchor d := by
  unfold IsInCycle monthsToAnchor
  rw [Date.isInMonthBefore_iff, Date.isInMonthBefore_iff]
  by_cases hsame : d.day = anchor
  · rw [if_pos hsame]
    constructor
    · rintro (rfl | h) <;> omega
    · exact fun h => .inl (Date.eq_of_monthNumber (by omega) (hsame.trans hday.symm))
  · have hne : d ≠ anchored := fun h => hsame (h ▸ hday)
    rw [if_neg hsame, or_iff_right hne]
    split <;> omega

theorem lacksAnchor_iff : LacksAnchor anchor d ↔
    d.monthNumber + monthsToAnchor anchor d < Date.firstYear * 12 ∨
      Date.lastYear * 12 + 11 < d.monthNumber + monthsToAnchor anchor d := by
  have hlow := d.valid.1
  have hhigh := d.valid.2.1
  have hfirst := d.month_pos
  have hlast := d.month_le
  unfold LacksAnchor monthsToAnchor Date.monthNumber
  split
  · omega
  · split <;> omega

/-- The anchor of a date in the calendar is its bucket. -/
theorem cycleStart_eq_iff (hlast : anchor ≤ 28) (hday : anchored.day = anchor) :
    cycleStart anchor d = anchored ↔ IsInCycle anchor d anchored := by
  rw [isInCycle_iff hday]
  have hfirst : 1 ≤ anchor := hday ▸ anchored.day_pos
  -- the move goes from the anchor day in the month of the date
  obtain ⟨here, hmonth, hhere⟩ :=
    Date.exists_monthNumber d.firstMonth_le d.le_lastMonth hfirst hlast
  have hmove (n : Int) : here.addMonths? n = some anchored ↔
      anchored.monthNumber = d.monthNumber + n := by
    rw [Date.addMonths?_eq_some_iff (hhere ▸ hlast), hmonth, hday, hhere]
    exact and_iff_left rfl
  rw [cycleStart, Date.withDay?_eq_some_iff.2 ⟨hmonth, hhere⟩]
  dsimp only
  unfold monthsToAnchor
  by_cases hsame : d.day = anchor
  · rw [if_pos hsame, if_pos hsame]
    constructor
    · rintro rfl
      omega
    · exact fun h => Date.eq_of_monthNumber (by omega) (hsame.trans hday.symm)
  · rw [if_neg hsame, if_neg hsame, ← hmove]
    have hne : d ≠ anchored := fun h => hsame (h ▸ hday)
    cases here.addMonths? (if anchor < d.day then 1 else -1) with
    | none => simp [hne]
    | some b => simp

/-- Only a date whose anchor is outside the calendar has a bucket on another day. -/
theorem day_cycleStart_ne_iff (hfirst : 1 ≤ anchor) (hlast : anchor ≤ 28) :
    (cycleStart anchor d).day ≠ anchor ↔ LacksAnchor anchor d := by
  rw [lacksAnchor_iff]
  constructor
  · intro hother
    by_contra hwithin
    rw [not_or] at hwithin
    obtain ⟨anchored, hmonth, hday⟩ :=
      Date.exists_monthNumber (Int.not_lt.1 hwithin.1) (Int.not_lt.1 hwithin.2) hfirst hlast
    have hstart := (cycleStart_eq_iff hlast hday).2 ((isInCycle_iff hday).2 hmonth)
    exact hother (hstart ▸ hday)
  · intro hout hday
    have hmonth := (isInCycle_iff hday).1 ((cycleStart_eq_iff (d := d) hlast hday).1 rfl)
    have hlow := (cycleStart anchor d).firstMonth_le
    have hhigh := (cycleStart anchor d).le_lastMonth
    omega

/-- A date stands before its bucket where it is past the anchor day, if the calendar has the anchor
    after it. -/
theorem lt_cycleStart_iff (hfirst : 1 ≤ anchor) (hlast : anchor ≤ 28) :
    d < cycleStart anchor d ↔ anchor < d.day ∧ ¬ LacksAnchor anchor d := by
  by_cases hlacks : LacksAnchor anchor d
  · have hother := (day_cycleStart_ne_iff hfirst hlast).2 hlacks
    rw [(cycleStart_eq_or hlast d).resolve_right hother]
    simp [Date.lt_def, hlacks]
  · have hday : (cycleStart anchor d).day = anchor := by
      by_contra hother
      exact hlacks ((day_cycleStart_ne_iff hfirst hlast).1 hother)
    have hmonth := (isInCycle_iff hday).1 ((cycleStart_eq_iff (d := d) hlast hday).1 rfl)
    have hend := d.day_le
    rw [and_iff_left hlacks, Date.lt_def]
    unfold monthsToAnchor at hmonth
    unfold Date.monthNumber at hmonth
    unfold Date.key
    split at hmonth
    · omega
    · split at hmonth <;> omega

end

theorem start_eq_cycleStart {g : Granularity} {anchor : Nat} (hg : g.anchor? = some anchor) :
    g.start = cycleStart anchor ∧ 1 ≤ anchor ∧ anchor ≤ 28 := by
  cases g with
  | billingMonth =>
      cases hg
      exact ⟨rfl, by decide, by decide⟩
  | financialMonth =>
      cases hg
      exact ⟨rfl, by decide, by decide⟩
  | day => cases hg
  | week => cases hg
  | month => cases hg
  | year => cases hg

/-- Only the buckets of cycles may begin behind a date. -/
theorem lt_start_iff {g : Granularity} {d : Date} :
    d < g.start d ↔
      ∃ anchor, g.anchor? = some anchor ∧ anchor < d.day ∧ ¬ LacksAnchor anchor d := by
  cases hg : g.anchor? with
  | none =>
      have hbehind : ¬ d < g.start d := Int.not_lt.2 (start_le hg d)
      simp [hbehind]
  | some anchor =>
      obtain ⟨hstart, hfirst, hlast⟩ := start_eq_cycleStart hg
      rw [hstart, lt_cycleStart_iff hfirst hlast]
      simp

/-- The bucket of an anchor has exactly the dates of its cycle. A date that lacks its anchor stands
    for itself, and only for such a date the bucket begins on another day of the month; every other
    date, and no such one, is in the cycle of exactly one anchor. -/
theorem cycles_follow_rule {g : Granularity} {anchor : Nat} (hg : g.anchor? = some anchor) :
    (∀ d anchored : Date, anchored.day = anchor →
      (g.start d = anchored ↔ IsInCycle anchor d anchored)) ∧
    (∀ d, (g.start d).day ≠ anchor ↔ LacksAnchor anchor d) ∧
    (∀ d, LacksAnchor anchor d → g.start d = d) ∧
    ∀ d, (∃! anchored : Date, anchored.day = anchor ∧ IsInCycle anchor d anchored) ↔
      ¬ LacksAnchor anchor d := by
  obtain ⟨hstart, hfirst, hlast⟩ := start_eq_cycleStart hg
  rw [hstart]
  refine ⟨fun d anchored hday => cycleStart_eq_iff hlast hday,
    fun d => day_cycleStart_ne_iff hfirst hlast, fun d hlacks => ?_, fun d => ?_⟩
  · have hother := (day_cycleStart_ne_iff hfirst hlast).2 hlacks
    exact (cycleStart_eq_or hlast d).resolve_right hother
  · rw [← day_cycleStart_ne_iff hfirst hlast, not_not]
    constructor
    · rintro ⟨anchored, ⟨hday, hcycle⟩, -⟩
      rw [(cycleStart_eq_iff hlast hday).2 hcycle, hday]
    · intro hday
      refine ⟨cycleStart anchor d, ⟨hday, (cycleStart_eq_iff hlast hday).1 rfl⟩, ?_⟩
      rintro anchored ⟨hanchored, hcycle⟩
      exact ((cycleStart_eq_iff hlast hanchored).2 hcycle).symm

/-- A day in December belongs to the billing month of January, and one in January to that of
    December before; the first day of the calendar stands for itself. -/
theorem cycles_follow_rule_billing :
    billingMonth.anchor? = some 9 ∧
      billingMonth.start ⟨2024, 12, 10, by decide⟩ = ⟨2025, 1, 9, by decide⟩ ∧
      billingMonth.start ⟨2024, 1, 8, by decide⟩ = ⟨2023, 12, 9, by decide⟩ ∧
      billingMonth.start ⟨-262143, 1, 1, by decide⟩ = ⟨-262143, 1, 1, by decide⟩ ∧
      ∃! anchored : Date, anchored.day = 9 ∧ IsInCycle 9 ⟨2024, 12, 31, by decide⟩ anchored := by
  obtain ⟨hcycle, _, hself, hone⟩ := cycles_follow_rule (g := billingMonth) rfl
  refine ⟨rfl, (hcycle _ _ rfl).2 ?_, (hcycle _ _ rfl).2 ?_, hself _ ?_, (hone _).2 ?_⟩
  · exact .inr (.inl ⟨.inr ⟨rfl, rfl, rfl⟩, by decide⟩)
  · exact .inr (.inr ⟨.inr ⟨rfl, rfl, rfl⟩, by decide⟩)
  · exact .inl ⟨rfl, rfl, by decide⟩
  · rintro (⟨hyear, -⟩ | ⟨hyear, -⟩)
    · cases hyear
    · cases hyear

end Granularity

end Bookkeeping
