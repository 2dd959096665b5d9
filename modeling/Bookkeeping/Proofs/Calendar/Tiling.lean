import Bookkeeping.Proofs.Calendar.Months
import Bookkeeping.Proofs.Calendar.Windows

set_option autoImplicit false

/-! # Buckets tile the calendar

Days, Mondays, first days of months and of years, and the anchors of the two cycles are the days on
which buckets begin, `IsFirstDay`. A step goes from one such day to the next one, passes over none,
and fails only where none is left.

Days, weeks, months and years begin on the last such day that is not behind the date. What the rest
needs of `start` is said by `start_le` and `le_start`: it is not behind the date, and no first day
up to the date is behind it. So the dates of a bucket are those from its first day to its last one,
and later dates never have earlier buckets. The days before the first Monday of the calendar have no
first day behind them; they stand for themselves. -/

namespace Bookkeeping

namespace Granularity

/-- Whether a bucket of this size begins on a day. -/
def IsFirstDay : Granularity → Date → Prop
  | .day, _ => True
  | .week, d => d.daysAfterMonday = 0
  | .month, d => d.day = 1
  | .year, d => d.month = 1 ∧ d.day = 1
  | .billingMonth, d => d.day = 9
  | .financialMonth, d => d.day = 19

/-- The day of the month that the cycles of a size are anchored on. The other sizes have none. -/
def anchor? : Granularity → Option Nat
  | .day | .week | .month | .year => none
  | .billingMonth => some 9
  | .financialMonth => some 19

/-! ## Steps -/

/-- Among the days of a kind, the one that follows `b`: no other lies between the two, and it is
    missing only where none is left. -/
structure IsNext (kind : Date → Prop) (b : Date) (next? : Option Date) : Prop where
  of_some : ∀ next, next? = some next →
    kind next ∧ b < next ∧ ∀ other, kind other → ¬ (b < other ∧ other < next)
  of_none : next? = none → ∀ other, kind other → ¬ b < other

section

variable {kind : Date → Prop} {b : Date} {n : Nat}

/-- Days that lie `n` days apart follow one another by going on `n` days. -/
theorem isNext_later? (hn : 0 < n)
    (hgap : ∀ other, kind other → b < other → b.dayNumber + n ≤ other.dayNumber)
    (hnext : ∀ next, next.dayNumber = b.dayNumber + n → kind next) :
    IsNext kind b (b.later? n) where
  of_some next h := by
    have hnumber := Date.later?_eq_some_iff.1 h
    refine ⟨hnext next hnumber, Date.lt_iff_dayNumber.2 (by omega), ?_⟩
    rintro other hother ⟨hlow, hhigh⟩
    have hle := hgap other hother hlow
    have hlt := Date.lt_iff_dayNumber.1 hhigh
    omega
  of_none h other hother hlt := by
    obtain ⟨next, hnumber⟩ :=
      Date.exists_dayNumber (d := b) _ (by omega) (hgap other hother hlt)
    rw [Date.later?_eq_some_iff.2 hnumber] at h
    cases h

/-- Days with one number in months that lie `n` months apart follow one another by going on `n`
    months. -/
theorem isNext_addMonths? (hn : 0 < n) (hday : b.day ≤ 28)
    (hgap : ∀ other, kind other →
      other.day = b.day ∧ (b < other → b.monthNumber + n ≤ other.monthNumber))
    (hnext : ∀ next, next.monthNumber = b.monthNumber + n → next.day = b.day → kind next) :
    IsNext kind b (b.addMonths? n) where
  of_some next h := by
    obtain ⟨hmonth, hsame⟩ := (Date.addMonths?_eq_some_iff hday).1 h
    refine ⟨hnext next hmonth hsame, (Date.lt_iff_monthNumber hsame.symm).2 (by omega), ?_⟩
    rintro other hother ⟨hlow, hhigh⟩
    obtain ⟨hsame', hle⟩ := hgap other hother
    have hle := hle hlow
    have hlt := (Date.lt_iff_monthNumber (hsame'.trans hsame.symm)).1 hhigh
    omega
  of_none h other hother hlt := by
    have hle := (hgap other hother).2 hlt
    have hlow := b.firstMonth_le
    have hhigh := other.le_lastMonth
    have hout := (Date.addMonths?_eq_none_iff hday).1 h
    omega

end

/-- Days with one number in their months follow one another month by month. -/
theorem isNext_addMonth? {day : Nat} (hlast : day ≤ 28) {b : Date} (hb : b.day = day) :
    IsNext (fun d => d.day = day) b (b.addMonths? 1) := by
  refine isNext_addMonths? (n := 1) (by decide) (hb ▸ hlast) ?_ fun next _ hsame => hsame.trans hb
  intro other hother
  refine ⟨hother.trans hb.symm, fun hlt => ?_⟩
  have hmonth := (Date.lt_iff_monthNumber (hb.trans hother.symm)).1 hlt
  omega

/-- A step leads from the first day of a bucket to that of the next one. -/
theorem isNext_step? {g : Granularity} {b : Date} (hb : g.IsFirstDay b) :
    IsNext g.IsFirstDay b (g.step? b) := by
  cases g with
  | day =>
      have hone : b.later? 1 = b.next? := by cases h : b.next? <;> simp [Date.later?, h]
      rw [step?, ← hone]
      refine isNext_later? (by decide) (fun other _ hlt => ?_) fun _ _ => trivial
      exact Date.lt_iff_dayNumber.1 hlt
  | week =>
      unfold IsFirstDay Date.daysAfterMonday at hb
      refine isNext_later? (by decide) ?_ ?_
      · intro other hother hlt
        have hnumber := Date.lt_iff_dayNumber.1 hlt
        unfold IsFirstDay Date.daysAfterMonday at hother
        omega
      · intro next hnumber
        unfold IsFirstDay Date.daysAfterMonday
        omega
  | month => exact isNext_addMonth? (by decide) hb
  | year =>
      obtain ⟨hmonth, hday⟩ := hb
      refine isNext_addMonths? (n := 12) (by decide) (by omega) ?_ ?_
      · rintro other ⟨hmonth', hday'⟩
        refine ⟨hday'.trans hday.symm, fun hlt => ?_⟩
        have hnumber := (Date.lt_iff_monthNumber (hday.trans hday'.symm)).1 hlt
        unfold Date.monthNumber at hnumber ⊢
        omega
      · intro next hnumber hsame
        have hfirst := next.month_pos
        have hlast := next.month_le
        unfold Date.monthNumber at hnumber
        exact ⟨by omega, hsame.trans hday⟩
  | billingMonth => exact isNext_addMonth? (by decide) hb
  | financialMonth => exact isNext_addMonth? (by decide) hb

/-! ## First days -/

theorem parts_start_month (d : Date) :
    (month.start d).year = d.year ∧ (month.start d).month = d.month ∧ (month.start d).day = 1 := by
  rw [start, Date.withDay?, Date.ofParts?, dif_pos (isValid_first_of_month d)]
  exact ⟨rfl, rfl, rfl⟩

theorem parts_start_year (d : Date) :
    (year.start d).year = d.year ∧ (year.start d).month = 1 ∧ (year.start d).day = 1 := by
  rw [start, Date.ofParts?, dif_pos (isValid_first_of_year d)]
  exact ⟨rfl, rfl, rfl⟩

/-- A date is its own bucket, or that of the Monday before it. -/
theorem start_week (d : Date) :
    week.start d = d ∨ (week.start d).dayNumber + d.daysAfterMonday = d.dayNumber := by
  rw [start]
  cases hback : d.before? d.daysAfterMonday with
  | none => exact .inl rfl
  | some b => exact .inr (Date.before?_eq_some_iff.1 hback).symm

/-- The anchor of a date is one of the cycle, or the date stands for itself. -/
theorem cycleStart_eq_or {anchor : Nat} (hanchor : anchor ≤ 28) (d : Date) :
    cycleStart anchor d = d ∨ (cycleStart anchor d).day = anchor := by
  unfold cycleStart
  split
  · exact .inl rfl
  · next anchored hanchored =>
      have hday : anchored.day = anchor := (Date.withDay?_eq_some_iff.1 hanchored).2
      split
      · exact .inl rfl
      · cases hmove : anchored.addMonths? (if anchor < d.day then 1 else -1) with
        | none => exact .inl rfl
        | some b =>
            have hsame := ((Date.addMonths?_eq_some_iff (hday ▸ hanchor)).1 hmove).2
            exact .inr (hsame.trans hday)

/-- The bucket of a date begins on a first day; where the calendar has none, it is the date. -/
theorem start_eq_or (g : Granularity) (d : Date) : g.start d = d ∨ g.IsFirstDay (g.start d) := by
  cases g with
  | day => exact .inl rfl
  | week =>
      refine (start_week d).imp_right fun hnumber => ?_
      unfold Date.daysAfterMonday at hnumber
      unfold IsFirstDay Date.daysAfterMonday
      omega
  | month => exact .inr (parts_start_month d).2.2
  | year => exact .inr (parts_start_year d).2
  | billingMonth => exact cycleStart_eq_or (by decide) d
  | financialMonth => exact cycleStart_eq_or (by decide) d

theorem start_cycleStart_self {anchor : Nat} {d : Date} (h : d.day = anchor) :
    cycleStart anchor d = d := by
  unfold cycleStart
  split
  · rfl
  · rw [if_pos h]

/-- A first day is its own bucket. -/
theorem start_eq_self {g : Granularity} {d : Date} (h : g.IsFirstDay d) : g.start d = d := by
  cases g with
  | day => rfl
  | week =>
      have hzero : d.daysAfterMonday = 0 := h
      rw [start, hzero]
      rfl
  | month =>
      obtain ⟨hyear, hmonth, hday⟩ := parts_start_month d
      exact Date.ext_parts hyear hmonth (hday.trans (Eq.symm h))
  | year =>
      obtain ⟨hyear, hmonth, hday⟩ := parts_start_year d
      exact Date.ext_parts hyear (hmonth.trans h.1.symm) (hday.trans h.2.symm)
  | billingMonth => exact start_cycleStart_self h
  | financialMonth => exact start_cycleStart_self h

theorem start_start (g : Granularity) (d : Date) : g.start (g.start d) = g.start d := by
  rcases g.start_eq_or d with hself | hfirst
  · rw [hself, hself]
  · exact start_eq_self hfirst

/-! ## Days, weeks, months and years -/

section

variable {g : Granularity} {b d e : Date}

/-- A bucket begins no later than its dates. -/
theorem start_le (hg : g.anchor? = none) (d : Date) : g.start d ≤ d := by
  cases g with
  | day => exact Int.le_refl _
  | week =>
      refine Date.le_iff_dayNumber.2 ?_
      rcases start_week d with hself | hnumber
      · exact Int.le_of_eq (congrArg Date.dayNumber hself)
      · omega
  | month =>
      obtain ⟨hyear, hmonth, hday⟩ := parts_start_month d
      have hfirst := d.day_pos
      rw [Date.le_def]
      simp only [Date.key, hyear, hmonth, hday]
      omega
  | year =>
      obtain ⟨hyear, hmonth, hday⟩ := parts_start_year d
      have hfirst := d.day_pos
      have hfirst' := d.month_pos
      rw [Date.le_def]
      simp only [Date.key, hyear, hmonth, hday]
      omega
  | billingMonth => cases hg
  | financialMonth => cases hg

/-- Of the first days up to a date, the bucket of the date begins on the last one. -/
theorem le_start (hg : g.anchor? = none) (hb : g.IsFirstDay b) (hle : b ≤ d) :
    g.IsFirstDay (g.start d) ∧ b ≤ g.start d := by
  cases g with
  | day => exact ⟨trivial, hle⟩
  | week =>
      have hnumber := Date.le_iff_dayNumber.1 hle
      unfold IsFirstDay Date.daysAfterMonday at hb
      -- the Monday before `d` is not before the Monday `b`, so the calendar has it
      obtain ⟨monday, hmonday⟩ := Date.exists_dayNumber (d := b) (e := d)
        (d.dayNumber - d.daysAfterMonday)
        (by unfold Date.daysAfterMonday; omega) (by omega)
      have hback : d.before? d.daysAfterMonday = some monday :=
        Date.before?_eq_some_iff.2 (by omega)
      have hstart : week.start d = monday := by rw [start, hback]; rfl
      rw [hstart, Date.le_iff_dayNumber]
      unfold IsFirstDay
      unfold Date.daysAfterMonday at hmonday ⊢
      omega
  | month =>
      obtain ⟨hyear, hmonth, hday⟩ := parts_start_month d
      have hlast := d.day_le
      have hone : b.day = 1 := hb
      refine ⟨hday, ?_⟩
      rw [Date.le_def] at hle ⊢
      simp only [Date.key, hyear, hmonth, hday] at hle ⊢
      omega
  | year =>
      obtain ⟨hyear, hmonth, hday⟩ := parts_start_year d
      have hlast := d.day_le
      have hlast' := d.month_le
      obtain ⟨hone, hone'⟩ := hb
      refine ⟨⟨hmonth, hday⟩, ?_⟩
      rw [Date.le_def] at hle ⊢
      simp only [Date.key, hyear, hmonth, hday] at hle ⊢
      omega
  | billingMonth => cases hg
  | financialMonth => cases hg

/-- Later dates do not have earlier buckets. -/
theorem start_mono (hg : g.anchor? = none) (h : d ≤ e) : g.start d ≤ g.start e := by
  have hbehind (hfirst : g.IsFirstDay (g.start d)) : g.start d ≤ g.start e :=
    (le_start hg hfirst (Int.le_trans (start_le hg d) h)).2
  rcases g.start_eq_or d with hself | hfirst
  · rcases g.start_eq_or e with hself' | hfirst'
    · rw [hself, hself']
      exact h
    · -- if the bucket of `e` begins up to `d`, there is a first day for `d` as well
      by_cases hle : g.start e ≤ d
      · exact hbehind (le_start hg hfirst' hle).1
      · rw [hself]
        exact Int.le_of_lt (Int.not_le.1 hle)
  · exact hbehind hfirst

/-- The dates of a bucket are those from its first day to its last one. -/
theorem start_eq_iff (hg : g.anchor? = none) (hb : g.IsFirstDay b) :
    g.start d = b ↔ b ≤ d ∧ d ≤ g.lastDay b := by
  constructor
  · rintro rfl
    exact ⟨start_le hg d, g.le_lastDay_start d⟩
  · rintro ⟨hle, hlast⟩
    obtain ⟨hfirst, hstart⟩ := le_start hg hb hle
    refine Date.key_injective (Int.le_antisymm (Int.not_lt.1 fun hlt => ?_) hstart)
    -- a first day behind `b` is not before the next one, which `d` does not reach
    cases hstep : g.step? b with
    | none => exact (isNext_step? hb).of_none hstep _ hfirst hlt
    | some next =>
        have hd : d < next := Int.lt_of_le_of_lt hlast (lastDay_lt_of_step? hstep)
        have hbefore : g.start d < next := Int.lt_of_le_of_lt (start_le hg d) hd
        exact ((isNext_step? hb).of_some next hstep).2.2 _ hfirst ⟨hlt, hbefore⟩

end

/-- Buckets of every size follow one another without a gap: the first day of a bucket is its own
    bucket, and a step leads to the first day of the next one, if one is left. Days, weeks, months
    and years consist of the dates from their first day to their last one and are in the order of
    these dates. -/
theorem buckets_tile (g : Granularity) :
    (∀ d, g.start (g.start d) = g.start d) ∧
    (∀ b, g.IsFirstDay b → IsNext g.IsFirstDay b (g.step? b)) ∧
    (g.anchor? = none →
      (∀ b d, g.IsFirstDay b → (g.start d = b ↔ b ≤ d ∧ d ≤ g.lastDay b)) ∧
      ∀ d e, d ≤ e → g.start d ≤ g.start e) :=
  ⟨g.start_start, fun _ => isNext_step?,
    fun hg => ⟨fun _ _ => start_eq_iff hg, fun _ _ => start_mono hg⟩⟩

/-- The last day of the calendar is a Monday. -/
theorem buckets_tile_last_monday :
    week.IsFirstDay .last ∧ week.anchor? = none ∧ week.step? .last = none ∧
      (∀ other, week.IsFirstDay other → ¬ Date.last < other) ∧
      (∀ d, week.start d = .last ↔ Date.last ≤ d ∧ d ≤ week.lastDay .last) ∧
      week.start (week.start .last) = week.start .last ∧
      ∀ d, week.start d ≤ week.start .last := by
  have hmonday : week.IsFirstDay .last := by
    unfold IsFirstDay
    decide
  have hstep : week.step? .last = none := by decide
  obtain ⟨hagain, hsteps, hplain⟩ := buckets_tile week
  obtain ⟨hdates, hmono⟩ := hplain rfl
  exact ⟨hmonday, rfl, hstep, (hsteps .last hmonday).of_none hstep,
    fun d => hdates .last d hmonday, hagain .last, fun d => hmono d .last d.le_last⟩

end Granularity

end Bookkeeping
