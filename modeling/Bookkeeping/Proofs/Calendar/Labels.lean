import Bookkeeping.Calendar.Walk
import Bookkeeping.Proofs.Text.Digits

set_option autoImplicit false

/-! # Labels identify buckets

A label drops the day of a month and the month and day of a year. These are known for the first
day of a bucket: it is a day on which a bucket of that size can start, `IsStart`, and so is every
bucket reached from it. The parts that are left have a fixed width behind the year, so different
buckets of one size have different labels. -/

namespace Bookkeeping

/-! ## Written years -/

theorem Date.digit?_sign (year : Int) :
    Text.digit? (if year < 0 then '-' else '+') = none := by
  split <;> decide

theorem Date.yearChars_injective {a b : Int} (h : yearChars a = yearChars b) : a = b := by
  unfold yearChars at h
  -- a year with a sign is none without
  by_cases ha : 0 ≤ a ∧ a ≤ 9999 <;> by_cases hb : 0 ≤ b ∧ b ≤ 9999
  · rw [if_pos ha, if_pos hb] at h
    have habs := Text.paddedDigits_injective h
    omega
  · rw [if_pos ha, if_neg hb] at h
    exact absurd h (Text.paddedDigits_ne_cons (digit?_sign b) _)
  · rw [if_neg ha, if_pos hb] at h
    exact absurd h.symm (Text.paddedDigits_ne_cons (digit?_sign a) _)
  · rw [if_neg ha, if_neg hb] at h
    obtain ⟨hsign, hdigits⟩ := List.cons.inj h
    have habs := Text.paddedDigits_injective hdigits
    have hsame : a < 0 ↔ b < 0 := by
      by_cases hneg : a < 0 <;> by_cases hneg' : b < 0 <;> simp [hneg, hneg'] at hsign ⊢
    omega

theorem Date.yearChars_ne_nil (year : Int) : yearChars year ≠ [] := by
  unfold yearChars
  split
  · exact Text.paddedDigits_ne_nil _ _
  · exact List.cons_ne_nil _ _

/-- A written year starts with a digit or a sign. -/
theorem Date.yearChars_ne_cons {year : Int} {c : Char} (hc : Text.digit? c = none)
    (hsign : c ≠ '-' ∧ c ≠ '+') (rest : List Char) : yearChars year ≠ c :: rest := by
  unfold yearChars
  split
  · exact Text.paddedDigits_ne_cons hc rest
  · intro h
    have hhead := (List.cons.inj h).1
    split at hhead
    · exact hsign.1 hhead.symm
    · exact hsign.2 hhead.symm

theorem Date.ext_parts {a b : Date} (hyear : a.year = b.year) (hmonth : a.month = b.month)
    (hday : a.day = b.day) : a = b := by
  cases a
  cases b
  cases hyear
  cases hmonth
  cases hday
  rfl

/-! ## First days -/

namespace Granularity

/-- Whether a bucket of this size can start on a day. -/
def IsStart : Granularity → Date → Prop
  | .month, d => d.day = 1
  | .year, d => d.month = 1 ∧ d.day = 1
  | _, _ => True

theorem isValid_first_of_month (d : Date) : Date.IsValid d.year d.month 1 :=
  ⟨d.valid.1, d.valid.2.1, Nat.le_refl 1, Nat.le_trans d.valid.2.2.1 d.valid.2.2.2⟩

theorem isValid_first_of_year (d : Date) : Date.IsValid d.year 1 1 :=
  ⟨d.valid.1, d.valid.2.1, Nat.le_refl 1, (by decide : 1 ≤ 31)⟩

theorem isStart_start (g : Granularity) (d : Date) : g.IsStart (g.start d) := by
  cases g with
  | month =>
      show ((Date.ofParts? d.year d.month 1).getD d).day = 1
      rw [Date.ofParts?, dif_pos (isValid_first_of_month d)]
      rfl
  | year =>
      show ((Date.ofParts? d.year 1 1).getD d).month = 1 ∧
        ((Date.ofParts? d.year 1 1).getD d).day = 1
      rw [Date.ofParts?, dif_pos (isValid_first_of_year d)]
      exact ⟨rfl, rfl⟩
  | day => trivial
  | week => trivial
  | billingMonth => trivial
  | financialMonth => trivial

theorem isStart_step? {g : Granularity} {bucket next : Date} (hbucket : g.IsStart bucket)
    (h : g.step? bucket = some next) : g.IsStart next := by
  cases g with
  | month =>
      obtain ⟨_, _, hday⟩ := Date.ofParts?_eq_some h
      have hpos := next.day_pos
      have hone : bucket.day = 1 := hbucket
      show next.day = 1
      omega
  | year =>
      obtain ⟨hyear, hmonth, hday⟩ := Date.ofParts?_eq_some h
      have hpos := next.day_pos
      have hone : bucket.month = 1 ∧ bucket.day = 1 := hbucket
      show next.month = 1 ∧ next.day = 1
      omega
  | day => trivial
  | week => trivial
  | billingMonth => trivial
  | financialMonth => trivial

/-! ## Labels -/

/-- The characters of the label of a dated bucket. -/
def labelChars (g : Granularity) (d : Date) : List Char :=
  Date.yearChars d.year ++
    match g with
    | .year => []
    | .month => Text.fixedDigits 2 d.month
    | _ => Text.fixedDigits 2 d.month ++ Text.fixedDigits 2 d.day

theorem month_lt (d : Date) : d.month < 10 ^ 2 := by
  have := d.month_le
  omega

theorem day_lt (d : Date) : d.day < 10 ^ 2 := by
  have := d.day_le
  omega

/-- Month and day stand behind the year in fields of two digits each. -/
theorem eq_of_full_labelChars {a b : Date}
    (h : Date.yearChars a.year ++ (Text.fixedDigits 2 a.month ++ Text.fixedDigits 2 a.day) =
      Date.yearChars b.year ++ (Text.fixedDigits 2 b.month ++ Text.fixedDigits 2 b.day)) :
    a = b := by
  obtain ⟨hyear, hrest⟩ := List.append_inj' h (by simp)
  obtain ⟨hmonth, hday⟩ := List.append_inj hrest (by simp)
  exact Date.ext_parts (Date.yearChars_injective hyear)
    (Text.fixedDigits_injective (month_lt a) (month_lt b) hmonth)
    (Text.fixedDigits_injective (day_lt a) (day_lt b) hday)

theorem labelChars_injective {g : Granularity} {a b : Date} (ha : g.IsStart a) (hb : g.IsStart b)
    (h : g.labelChars a = g.labelChars b) : a = b := by
  cases g with
  | month =>
      obtain ⟨hyear, hmonth⟩ := List.append_inj' h (by simp)
      have hday : a.day = b.day := Eq.trans ha (Eq.symm hb)
      exact Date.ext_parts (Date.yearChars_injective hyear)
        (Text.fixedDigits_injective (month_lt a) (month_lt b) hmonth) hday
  | year =>
      obtain ⟨hyear, _⟩ := List.append_inj' h rfl
      exact Date.ext_parts (Date.yearChars_injective hyear) (ha.1.trans hb.1.symm)
        (ha.2.trans hb.2.symm)
  | day => exact eq_of_full_labelChars h
  | week => exact eq_of_full_labelChars h
  | billingMonth => exact eq_of_full_labelChars h
  | financialMonth => exact eq_of_full_labelChars h

/-- The label of the undated bucket is not that of a date: a written year does not start with a
    bracket. -/
theorem label_ne_undatedLabel (g : Granularity) (d : Date) : g.label (some d) ≠ undatedLabel := by
  intro h
  have hchars : Date.yearChars d.year ++ _ = '[' :: ['n', 'u', 'l', 'l', ']'] :=
    String.ofList_injective h
  cases hyear : Date.yearChars d.year with
  | nil => exact Date.yearChars_ne_nil d.year hyear
  | cons c rest =>
      rw [hyear, List.cons_append] at hchars
      obtain ⟨rfl, _⟩ := List.cons.inj hchars
      exact Date.yearChars_ne_cons (by decide) (by decide) rest hyear

/-- Different buckets of one size have different labels. -/
theorem label_injective {g : Granularity} {a b : Option Date} (ha : ∀ d ∈ a, g.IsStart d)
    (hb : ∀ d ∈ b, g.IsStart d) (h : g.label a = g.label b) : a = b := by
  cases a with
  | none =>
      cases b with
      | none => rfl
      | some b => exact absurd h.symm (label_ne_undatedLabel g b)
  | some a =>
      cases b with
      | none => exact absurd h (label_ne_undatedLabel g a)
      | some b =>
          have hchars : g.labelChars a = g.labelChars b := String.ofList_injective h
          exact congrArg some (labelChars_injective (ha a rfl) (hb b rfl) hchars)

end Granularity

end Bookkeeping
