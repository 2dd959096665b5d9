import Bookkeeping.Calendar.Granularity

set_option autoImplicit false

/-! # Walking the calendar

A step from a bucket always leads to a later day, so the walk from one bucket to the next reaches
any day after finitely many steps. `bucketsUpTo` lists the buckets met on the way. -/

namespace Bookkeeping

namespace Date

theorem lt_of_next? {d e : Date} (h : d.next? = some e) : d < e := by
  have hd := d.day_le
  have hm := d.month_le
  simp only [next?, Option.orElse_eq_orElse, Option.orElse_eq_or, Option.or_eq_some_iff] at h
  rw [lt_def]
  simp only [key]
  have he := e.day_pos
  rcases h with h | ⟨_, h | ⟨_, h⟩⟩ <;> obtain ⟨hy, hmo, hda⟩ := ofParts?_eq_some h <;>
    rw [hy, hmo, hda] <;> omega

theorem lt_trans {a b c : Date} (hab : a < b) (hbc : b < c) : a < c :=
  Int.lt_trans hab hbc

theorem lt_of_later? {d e : Date} {n : Nat} (h : d.later? (n + 1) = some e) : d < e := by
  induction n generalizing d with
  | zero =>
      simp only [later?, Option.bind_eq_some_iff] at h
      obtain ⟨f, hf, he⟩ := h
      simp only [Option.some.injEq] at he
      exact he ▸ lt_of_next? hf
  | succ n ih =>
      rw [later?, Option.bind_eq_some_iff] at h
      obtain ⟨f, hf, he⟩ := h
      exact lt_trans (lt_of_next? hf) (ih he)

theorem lt_of_addMonths? {d e : Date} {n : Int} (hn : 0 < n) (h : d.addMonths? n = some e) :
    d < e := by
  have hd := d.day_le
  have he := e.day_pos
  obtain ⟨hy, hm, _⟩ := ofParts?_eq_some h
  rw [lt_def]
  simp only [key]
  omega

end Date

namespace Granularity

theorem lt_of_step? {g : Granularity} {bucket next : Date} (h : g.step? bucket = some next) :
    bucket < next := by
  cases g with
  | day => exact Date.lt_of_next? h
  | week => exact Date.lt_of_later? h
  | month => exact Date.lt_of_addMonths? (by decide) h
  | year => exact Date.lt_of_addMonths? (by decide) h
  | billingMonth => exact Date.lt_of_addMonths? (by decide) h
  | financialMonth => exact Date.lt_of_addMonths? (by decide) h

/-- The bucket itself and those after it, as long as they start no later than `finish`. -/
def bucketsUpTo (g : Granularity) (finish bucket : Date) : List Date :=
  match _h : g.step? bucket with
  | some next => if next ≤ finish then bucket :: g.bucketsUpTo finish next else [bucket]
  | none => [bucket]
termination_by (finish.key - bucket.key).toNat
decreasing_by
  have h₁ : bucket.key < next.key := lt_of_step? _h
  have h₂ : next.key ≤ finish.key := by assumption
  omega

end Granularity

end Bookkeeping
