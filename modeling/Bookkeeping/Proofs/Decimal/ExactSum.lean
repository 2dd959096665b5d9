import Bookkeeping.Proofs.Failure
import Mathlib

set_option autoImplicit false

/-! # Exact sums

The value of an amount is its coefficient over a power of ten. A result that is a whole number of
units of some scale, and small enough at that scale, is given exactly by `fit`, at whatever scale
it was worked out: dropping decimals drops nothing but zeros.

`SummableAt` collects what makes a whole list of amounts behave: there is one scale at which all
of them are whole and their magnitudes together stay below the bound. Then no sum on the way,
in any order and of any part of the list, is rounded or leaves the range. -/

namespace Bookkeeping.Decimal

/-! ## Values -/

theorem cast_tenPow (n : Nat) : ((tenPow n : Nat) : ℚ) = 10 ^ n := by
  have h : tenPow n = 10 ^ n := rfl
  rw [h]
  push_cast
  rfl

theorem toRat_eq (a : Decimal) : a.toRat = a.coeff / 10 ^ a.scale := by
  rw [toRat, Rat.mkRat_eq_div, cast_tenPow]

theorem toRat_mul_pow (a : Decimal) : a.toRat * 10 ^ a.scale = a.coeff := by
  rw [toRat_eq]
  exact div_mul_cancel₀ _ (by positivity)

/-- The value of an amount from its coefficient at any scale. -/
theorem toRat_eq_of_coeff_mul {c : Decimal} {n : Int} {s : Nat}
    (h : c.coeff * tenPow s = n * tenPow c.scale) : c.toRat = n / 10 ^ s := by
  have hq : (c.coeff : ℚ) * 10 ^ s = n * 10 ^ c.scale := by
    rw [← cast_tenPow, ← cast_tenPow]
    exact_mod_cast h
  rw [toRat_eq, div_eq_div_iff (by positivity) (by positivity)]
  exact hq

@[simp] theorem toRat_zero : zero.toRat = 0 := by
  rw [toRat_eq]
  norm_num [zero, coeff]

@[simp] theorem toRat_one : one.toRat = 1 := by
  rw [toRat_eq]
  norm_num [one, coeff]

theorem toRat_eq_zero_iff (a : Decimal) : a.toRat = 0 ↔ a.isZero = true := by
  rw [isZero_iff, toRat_eq, div_eq_zero_iff]
  have h : ((10 : ℚ) ^ a.scale) ≠ 0 := by positivity
  simp [h]

/-- No amount reaches the bound of its digits. -/
theorem abs_toRat_lt (a : Decimal) : |a.toRat| < magnitudeBound := by
  have hpow : (1 : ℚ) ≤ 10 ^ a.scale := one_le_pow₀ (by norm_num)
  have hdigits : |(a.coeff : ℚ)| < magnitudeBound := by
    rw [← Int.cast_abs, Int.abs_eq_natAbs, natAbs_coeff]
    exact_mod_cast a.magnitude_lt
  rw [toRat_eq, abs_div, abs_of_pos (zero_lt_one.trans_le hpow)]
  exact (div_le_self (abs_nonneg _) hpow).trans_lt hdigits

/-! ## Dropping zeros -/

theorem nearest_mul (q d : Nat) (hd : 0 < d) : nearest (q * d) d = q := by
  have hq : q * d / d = q := Nat.mul_div_cancel q hd
  have hr : q * d % d = 0 := Nat.mul_mod_left q d
  unfold nearest
  rw [hq, hr]
  have hfalse : ¬ (d < 2 * 0 ∨ d = 2 * 0 ∧ q % 2 = 1) := by omega
  exact if_neg hfalse

/-- A common factor changes nothing. -/
theorem nearest_mul_mul (n d k : Nat) (hk : 0 < k) : nearest (n * k) (d * k) = nearest n d := by
  have hq : n * k / (d * k) = n / d := Nat.mul_div_mul_right n d hk
  have hr : n * k % (d * k) = n % d * k := Nat.mul_mod_mul_right k n d
  have hlt : d * k < 2 * (n % d * k) ↔ d < 2 * (n % d) := by
    rw [← Nat.mul_assoc]
    exact Nat.mul_lt_mul_right hk
  have heq : d * k = 2 * (n % d * k) ↔ d = 2 * (n % d) := by
    rw [← Nat.mul_assoc]
    exact Nat.mul_left_inj (Nat.ne_of_gt hk)
  simp only [nearest, hq, hr, hlt, heq]

/-- A magnitude that is whole at scale `s` loses nothing on the way to a scale `t` from `s` on. -/
theorem dropDecimals_whole {n m s t scale : Nat} (h : n * tenPow s = m * tenPow scale)
    (hs : s ≤ t) (ht : t ≤ scale) : dropDecimals n (scale - t) = m * tenPow (t - s) := by
  have hsplit : tenPow scale = tenPow (t - s) * tenPow (scale - t) * tenPow s := by
    rw [← tenPow_add, ← tenPow_add]
    congr 1
    omega
  have hn : n = m * tenPow (t - s) * tenPow (scale - t) := by
    refine Nat.eq_of_mul_eq_mul_right (tenPow_pos s) ?_
    rw [h, hsplit]
    ring
  rw [dropDecimals, hn, nearest_mul _ _ (tenPow_pos _)]

theorem fitAt_whole {negative : Bool} {n m s scale : Nat} (hm : m < magnitudeBound)
    (h : n * tenPow s = m * tenPow scale) (t : Nat) (hs : s ≤ t) (ht : t ≤ scale)
    (hmax : t ≤ maxScale) :
    ∃ c, fitAt negative n scale t hmax = some c ∧ c.negative = negative ∧
      c.magnitude * tenPow scale = n * tenPow c.scale := by
  -- at every scale from `s` on, what is left has the value of `n`
  have hvalue {u : Nat} (hsu : s ≤ u) (hu : u ≤ scale) :
      dropDecimals n (scale - u) * tenPow scale = n * tenPow u := by
    rw [dropDecimals_whole h hsu hu]
    have hu' : tenPow u = tenPow (u - s) * tenPow s := by
      rw [← tenPow_add, Nat.sub_add_cancel hsu]
    rw [hu', ← Nat.mul_assoc, Nat.mul_right_comm n, h]
    ring
  induction t with
  | zero =>
      have hs0 : s = 0 := Nat.le_zero.1 hs
      have hdrop : dropDecimals n scale = m := by
        simpa [hs0] using dropDecimals_whole h hs ht
      have hlt : dropDecimals n scale < magnitudeBound := hdrop ▸ hm
      rw [fitAt, dif_pos hlt]
      exact ⟨_, rfl, rfl, hvalue hs ht⟩
  | succ t ih =>
      rw [fitAt]
      split
      · exact ⟨_, rfl, rfl, hvalue hs ht⟩
      · next hlarge =>
          -- at scale `s` the magnitude is `m`, which fits, so the search ends there at the latest
          have hne : s ≠ t + 1 := by
            intro heq
            rw [dropDecimals_whole h hs ht, heq] at hlarge
            simp only [Nat.sub_self, tenPow_zero, Nat.mul_one] at hlarge
            exact hlarge hm
          exact ih (by omega) (by omega) _

/-- The value `n / 10 ^ scale` is given exactly when it is a whole number of units of a scale `s`
    that is small enough. -/
theorem fit_whole {n m : Int} {s scale : Nat} (hs : s ≤ maxScale)
    (hm : m.natAbs < magnitudeBound) (h : n * tenPow s = m * tenPow scale) :
    ∃ c, fit n scale = some c ∧ c.toRat = n / 10 ^ scale := by
  have habs : n.natAbs * tenPow s = m.natAbs * tenPow scale := by
    have := congrArg Int.natAbs h
    simpa [Int.natAbs_mul] using this
  suffices hfit : ∃ c, fit n scale = some c ∧ c.negative = decide (n < 0) ∧
      c.magnitude * tenPow scale = n.natAbs * tenPow c.scale by
    obtain ⟨c, hc, hneg, hmag⟩ := hfit
    refine ⟨c, hc, toRat_eq_of_coeff_mul ?_⟩
    have hmag' : (c.magnitude : Int) * tenPow scale = n.natAbs * tenPow c.scale := by
      exact_mod_cast hmag
    unfold coeff
    rw [hneg]
    by_cases hn : n < 0
    · have hnabs : (n.natAbs : Int) = -n := by omega
      rw [hnabs] at hmag'
      simp only [hn, decide_true, if_true]
      linarith
    · have hnabs : (n.natAbs : Int) = n := by omega
      rw [hnabs] at hmag'
      simpa [hn] using hmag'
  -- below `s` nothing has to be dropped; from `s` on the search for a scale ends
  rcases Nat.lt_or_ge scale s with hlt | hge
  · have hsmall : n.natAbs < magnitudeBound := by
      refine Nat.lt_of_le_of_lt ?_ hm
      refine Nat.le_of_mul_le_mul_right ?_ (tenPow_pos s)
      rw [habs]
      exact Nat.mul_le_mul_left _ (Nat.pow_le_pow_right (by decide) (Nat.le_of_lt hlt))
    exact ⟨_, fit_of_lt n scale hsmall (by omega), rfl, rfl⟩
  · exact fitAt_whole hm habs _ (Nat.le_min.2 ⟨hge, hs⟩) (Nat.min_le_left _ _) _

/-- A value that is whole at a scale, and small enough there, is given exactly from whatever
    scale it was worked out at. -/
theorem fit_value {n m : Int} {s scale : Nat} {value : ℚ} (hvalue : (n : ℚ) / 10 ^ scale = value)
    (hs : s ≤ maxScale) (hm : value * 10 ^ s = m) (hlt : m.natAbs < magnitudeBound) :
    ∃ c, fit n scale = some c ∧ c.toRat = value := by
  have hwhole : n * tenPow s = m * tenPow scale := by
    have hn : (n : ℚ) = value * 10 ^ scale := by
      rw [← hvalue]
      exact (div_mul_cancel₀ _ (by positivity)).symm
    have hq : (n : ℚ) * 10 ^ s = m * 10 ^ scale := by
      rw [hn, ← hm]
      ring
    rw [← cast_tenPow, ← cast_tenPow] at hq
    exact_mod_cast hq
  obtain ⟨c, hc, htoRat⟩ := fit_whole hs hlt hwhole
  exact ⟨c, hc, htoRat.trans hvalue⟩

/-! ## One sum -/

/-- The coefficient of a sum at the larger of two scales. -/
theorem aligned_sum (a b : Decimal) :
    ((a.coeff * tenPow (max a.scale b.scale - a.scale) +
      b.coeff * tenPow (max a.scale b.scale - b.scale) : Int) : ℚ) / 10 ^ max a.scale b.scale =
        a.toRat + b.toRat := by
  generalize hscale : max a.scale b.scale = scale
  have hle : a.scale ≤ scale ∧ b.scale ≤ scale := by omega
  have haligned (x : Decimal) (hx : x.scale ≤ scale) :
      ((x.coeff * tenPow (scale - x.scale) : Int) : ℚ) = x.toRat * 10 ^ scale := by
    push_cast
    rw [cast_tenPow, ← toRat_mul_pow, mul_assoc, ← pow_add, Nat.add_sub_cancel' hx]
  rw [Int.cast_add, haligned a hle.1, haligned b hle.2, ← add_mul]
  exact mul_div_cancel_right₀ _ (by positivity)

/-- Two amounts that are whole at a scale, and whose sum is small enough there, have an exact
    sum. -/
theorem add_whole {a b : Decimal} {s : Nat} {m n : Int} (hs : s ≤ maxScale)
    (ha : a.toRat * 10 ^ s = m) (hb : b.toRat * 10 ^ s = n)
    (hlt : (m + n).natAbs < magnitudeBound) :
    ∃ c, a.add b = some c ∧ c.toRat = a.toRat + b.toRat := by
  unfold add
  split
  · next hzero => exact ⟨b, rfl, by rw [(toRat_eq_zero_iff a).2 hzero, zero_add]⟩
  · split
    · next hzero => exact ⟨a, rfl, by rw [(toRat_eq_zero_iff b).2 hzero, add_zero]⟩
    · refine fit_value (aligned_sum a b) hs ?_ hlt
      rw [add_mul, ha, hb, Int.cast_add]

/-! ## Summable amounts -/

/-- All amounts are whole at a scale, and their magnitudes together stay below the bound. -/
structure SummableAt (s : Nat) (amounts : List Decimal) : Prop where
  scale_le : s ≤ maxScale
  whole : ∀ a ∈ amounts, ∃ n : Int, a.toRat * 10 ^ s = n
  bounded : (amounts.map fun a => |a.toRat|).sum * 10 ^ s < magnitudeBound

/-- Amounts that can be added up exactly, in any order. -/
def ExactlySummable (amounts : List Decimal) : Prop :=
  ∃ s, SummableAt s amounts

namespace SummableAt

variable {s : Nat} {a b : Decimal} {amounts others : List Decimal}

/-- Amounts with no more decimals than that are whole at a scale. -/
theorem of_scale_le (hs : s ≤ maxScale) (hscale : ∀ a ∈ amounts, a.scale ≤ s)
    (hbounded : (amounts.map fun a => |a.toRat|).sum * 10 ^ s < magnitudeBound) :
    SummableAt s amounts := by
  refine ⟨hs, fun a ha => ⟨a.coeff * 10 ^ (s - a.scale), ?_⟩, hbounded⟩
  push_cast
  rw [← toRat_mul_pow, mul_assoc, ← pow_add, Nat.add_sub_cancel' (hscale a ha)]

theorem sublist (h : SummableAt s amounts) (hsub : others.Sublist amounts) :
    SummableAt s others := by
  refine ⟨h.scale_le, fun a ha => h.whole a (hsub.subset ha), ?_⟩
  refine lt_of_le_of_lt ?_ h.bounded
  refine mul_le_mul_of_nonneg_right ?_ (by positivity)
  refine (hsub.map _).sum_le_sum ?_
  intro x hx
  obtain ⟨a, _, rfl⟩ := List.mem_map.1 hx
  exact abs_nonneg a.toRat

theorem perm (h : SummableAt s amounts) (hperm : others.Perm amounts) :
    SummableAt s others := by
  refine ⟨h.scale_le, fun a ha => h.whole a (hperm.subset ha), ?_⟩
  rw [(hperm.map _).sum_eq]
  exact h.bounded

theorem zero_cons (h : SummableAt s amounts) : SummableAt s (zero :: amounts) := by
  refine ⟨h.scale_le, ?_, ?_⟩
  · intro a ha
    rcases List.mem_cons.1 ha with rfl | ha
    · exact ⟨0, by simp⟩
    · exact h.whole a ha
  · simpa using h.bounded

/-- The first two amounts have an exact sum, and it may take their place. -/
theorem add (h : SummableAt s (a :: b :: amounts)) :
    ∃ c, a.checkedAdd b = .ok c ∧ c.toRat = a.toRat + b.toRat ∧ SummableAt s (c :: amounts) := by
  obtain ⟨m, ha⟩ := h.whole a (by simp)
  obtain ⟨n, hb⟩ := h.whole b (by simp)
  have hbound := h.bounded
  simp only [List.map_cons, List.sum_cons] at hbound
  have hpow : (0 : ℚ) < 10 ^ s := by positivity
  have hrest : 0 ≤ (amounts.map fun a => |a.toRat|).sum := by
    refine List.sum_nonneg ?_
    intro x hx
    obtain ⟨a, _, rfl⟩ := List.mem_map.1 hx
    exact abs_nonneg a.toRat
  -- the sum is not larger than its terms together, so it may take their place
  have htriangle : |a.toRat + b.toRat| ≤ |a.toRat| + |b.toRat| := abs_add_le _ _
  have hlt : (m + n).natAbs < magnitudeBound := by
    have hq : ((m + n).natAbs : ℚ) = |a.toRat + b.toRat| * 10 ^ s := by
      rw [Nat.cast_natAbs, Int.cast_abs, Int.cast_add, ← ha, ← hb, ← add_mul, abs_mul,
        abs_of_pos hpow]
    have : ((m + n).natAbs : ℚ) < magnitudeBound := by
      rw [hq]
      nlinarith
    exact_mod_cast this
  obtain ⟨c, hc, hvalue⟩ := add_whole h.scale_le ha hb hlt
  refine ⟨c, ?_, hvalue, h.scale_le, ?_, ?_⟩
  · simp [checkedAdd, hc]
  · intro x hx
    rcases List.mem_cons.1 hx with rfl | hx
    · exact ⟨m + n, by rw [hvalue, add_mul, ha, hb, Int.cast_add]⟩
    · exact h.whole x (by simp [hx])
  · rw [List.map_cons, List.sum_cons, hvalue]
    nlinarith

/-- Adding summable amounts to the first of them one after another is exact, and what is reached
    may take the place of those added up. -/
theorem checkedSumFrom_front {front back : List Decimal}
    (h : SummableAt s (a :: (front ++ back))) :
    ∃ c, Decimal.checkedSumFrom a front = .ok c ∧
      c.toRat = a.toRat + (front.map toRat).sum ∧ SummableAt s (c :: back) := by
  induction front generalizing a with
  | nil => exact ⟨a, rfl, by simp, h⟩
  | cons b rest ih =>
      obtain ⟨c, hc, hvalue, hrest⟩ := h.add
      obtain ⟨d, hd, hsum, hback⟩ := ih hrest
      refine ⟨d, ?_, ?_, hback⟩
      · rw [Decimal.checkedSumFrom, List.foldlM_cons, hc]
        exact hd
      · rw [hsum, hvalue, List.map_cons, List.sum_cons, add_assoc]

theorem checkedSumFrom (h : SummableAt s (a :: amounts)) :
    ∃ c, Decimal.checkedSumFrom a amounts = .ok c ∧
      c.toRat = a.toRat + (amounts.map toRat).sum := by
  rw [← List.append_nil amounts] at h
  obtain ⟨c, hc, hvalue, _⟩ := h.checkedSumFrom_front
  exact ⟨c, hc, hvalue⟩

end SummableAt

namespace ExactlySummable

variable {amounts others : List Decimal}

/-- Any part of summable amounts, in any order, is summable. -/
theorem subperm (h : ExactlySummable amounts) (hsub : others.Subperm amounts) :
    ExactlySummable others := by
  obtain ⟨s, h⟩ := h
  obtain ⟨between, hperm, hsublist⟩ := hsub
  exact ⟨s, (h.sublist hsublist).perm hperm.symm⟩

/-- The sum of summable amounts exists and is exact. -/
theorem checkedSum (h : ExactlySummable amounts) :
    ∃ c, Decimal.checkedSum amounts = .ok c ∧ c.toRat = (amounts.map toRat).sum := by
  obtain ⟨s, h⟩ := h
  obtain ⟨c, hc, hvalue⟩ := h.zero_cons.checkedSumFrom
  exact ⟨c, hc, by rw [hvalue, toRat_zero, zero_add]⟩

theorem adds (h : ExactlySummable amounts) : Adds amounts := by
  intro part hpart
  obtain ⟨fund, hfund, _⟩ := (h.subperm hpart.subperm).checkedSum
  exact ⟨fund, hfund⟩

end ExactlySummable

end Bookkeeping.Decimal
