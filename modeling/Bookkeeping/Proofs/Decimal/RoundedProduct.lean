import Bookkeeping.Proofs.Decimal.ExactProduct
import Bookkeeping.Proofs.Decimal.Rounding

set_option autoImplicit false

/-! # Rounded products

A product is the exact one rounded to nearest, and there is none exactly where even the nearest
whole number is out of range. The bound of magnitudes is even, so a product that is half a unit
below it is already out of range. The shortcut for short magnitudes makes no difference to the
value: what it calls zero is less than half of the smallest unit. -/

namespace Bookkeeping.Decimal

/-- Rounding reaches an even number half a unit below it. -/
theorem le_nearest_iff {m n d : Nat} (hd : 0 < d) (heven : m % 2 = 0) :
    m ≤ nearest n d ↔ 2 * (m * d) ≤ 2 * n + d := by
  have hsplit : n / d * d + n % d = n := Nat.div_add_mod' n d
  have hr : n % d < d := Nat.mod_lt n hd
  unfold nearest
  dsimp only
  generalize n / d = q at hsplit
  generalize n % d = r at hsplit hr
  rcases Nat.lt_trichotomy m (q + 1) with hlt | heq | hgt
  · have hmul : m * d ≤ q * d := Nat.mul_le_mul_right d (Nat.le_of_lt_succ hlt)
    split <;> constructor <;> intro <;> omega
  · have hmul : m * d = q * d + d := by rw [heq, Nat.add_mul, Nat.one_mul]
    split <;> constructor <;> intro <;> omega
  · have hmul : (q + 2) * d ≤ m * d := Nat.mul_le_mul_right d hgt
    rw [Nat.add_mul] at hmul
    split <;> constructor <;> intro <;> omega

/-- A value does not fit exactly where its nearest whole number is out of range. -/
theorem fit_eq_none_iff {n : Int} {s : Nat} :
    fit n s = none ↔ (magnitudeBound : ℚ) ≤ |(n : ℚ) / 10 ^ s| + 1 / 2 := by
  constructor
  · exact fit_eq_none
  · intro hlarge
    have hdigits : 2 * (magnitudeBound * tenPow s) ≤ 2 * n.natAbs + tenPow s := by
      have hpow : (0 : ℚ) < 10 ^ s := by positivity
      rw [abs_div, abs_of_pos hpow, ← Int.cast_abs, ← Nat.cast_natAbs, ← sub_le_iff_le_add,
        le_div_iff₀ hpow, ← cast_tenPow, sub_mul] at hlarge
      have hq : (2 : ℚ) * (magnitudeBound * (tenPow s : Nat)) ≤
          2 * (n.natAbs : Nat) + (tenPow s : Nat) := by
        generalize (magnitudeBound : ℚ) = bound at hlarge
        linarith
      exact_mod_cast hq
    cases hfit : fit n s with
    | none => rfl
    | some c =>
        -- at no scale do so many digits fit
        unfold fit at hfit
        obtain ⟨-, hscale, hmagnitude, -⟩ := fitAt_eq_some hfit
        have hfewer : tenPow (s - c.scale) ≤ tenPow s :=
          Nat.pow_le_pow_right (by decide) (Nat.sub_le _ _)
        have hnot := c.magnitude_lt
        rw [hmagnitude, dropDecimals, ← Nat.not_le,
          le_nearest_iff (tenPow_pos _) (by decide)] at hnot
        unfold magnitudeBound at hdigits hnot
        omega

theorem NearestAt.of_exact {value : ℚ} {c : Decimal} (h : c.toRat = value) :
    NearestAt c.scale value c := by
  refine ⟨c.scale_le, ⟨c.coeff, c.toRat_mul_pow⟩, ?_, .inl h⟩
  rw [h, sub_self, abs_zero, zero_mul]
  norm_num

theorem NearestAt.congr {s : Nat} {value : ℚ} {c d : Decimal} (h : NearestAt s value c)
    (heq : d.toRat = c.toRat) : NearestAt s value d := by
  obtain ⟨hscale, hwhole, hnear, hfull⟩ := h
  exact ⟨hscale, heq ▸ hwhole, heq ▸ hnear, heq ▸ hfull⟩

variable {a b c : Decimal}

/-- What the shortcut for short magnitudes calls zero is too small for the last decimal. -/
theorem abs_short_product_le (hshort : a.magnitude < shortBound ∧ b.magnitude < shortBound)
    (hscale : shortProductScale < a.scale + b.scale) :
    |a.toRat * b.toRat| * 10 ^ maxScale ≤ 1 / 2 := by
  have hproduct : a.magnitude * b.magnitude < shortBound * shortBound :=
    Nat.mul_lt_mul'' hshort.1 hshort.2
  have hdigits : (|a.coeff * b.coeff| : ℚ) ≤ (shortBound * shortBound : Nat) := by
    rw [← Int.cast_mul, ← Int.cast_abs, Int.abs_eq_natAbs, Int.natAbs_mul, natAbs_coeff,
      natAbs_coeff, Int.cast_natCast]
    exact Nat.cast_le.2 hproduct.le
  have hpow : (10 : ℚ) ^ (shortProductScale + 1) ≤ 10 ^ (a.scale + b.scale) :=
    pow_le_pow_right₀ (by norm_num) hscale
  rw [← coeff_mul_coeff, Int.cast_mul, abs_div, abs_of_pos (by positivity : (0 : ℚ) < 10 ^ _),
    div_mul_eq_mul_div, div_le_iff₀ (by positivity)]
  norm_num at hdigits hpow ⊢
  linarith

theorem mul_eq_none_iff :
    a.mul b = none ↔ (magnitudeBound : ℚ) ≤ |a.toRat * b.toRat| + 1 / 2 := by
  have hsmall (h : |a.toRat * b.toRat| ≤ 1 / 2) :
      ¬ (magnitudeBound : ℚ) ≤ |a.toRat * b.toRat| + 1 / 2 := by
    have hnumber : (1 : ℚ) / 2 + 1 / 2 < magnitudeBound := by norm_num
    linarith
  unfold mul
  split
  · next hzero =>
      have hproduct : a.toRat * b.toRat = 0 := by
        rw [mul_eq_zero, toRat_eq_zero_iff, toRat_eq_zero_iff]
        exact hzero
      simp only [reduceCtorEq, false_iff]
      exact hsmall (by rw [hproduct, abs_zero]; norm_num)
  · rw [← coeff_mul_coeff, ← fit_eq_none_iff]
    dsimp only
    split
    · next hshort =>
        split
        · next hscale =>
            have hle := abs_short_product_le hshort hscale
            have hpow : (1 : ℚ) ≤ 10 ^ maxScale := one_le_pow₀ (by norm_num)
            rw [fit_eq_none_iff, coeff_mul_coeff]
            simp only [reduceCtorEq, false_iff]
            exact hsmall ((le_mul_of_one_le_right (abs_nonneg _) hpow).trans hle)
        · exact Option.map_eq_none_iff
    · exact Iff.rfl

/-- A product is rounded to nearest. -/
theorem mul_nearestAt (h : a.mul b = some c) : ∃ s, NearestAt s (a.toRat * b.toRat) c := by
  unfold mul at h
  split at h
  · next hzero =>
      cases h
      refine ⟨_, .of_exact ?_⟩
      rw [toRat_zero, zero_eq_mul, toRat_eq_zero_iff, toRat_eq_zero_iff]
      exact hzero
  · dsimp only at h
    split at h
    · next hshort =>
        split at h
        · next hscale =>
            cases h
            refine ⟨maxScale, le_refl _, ⟨0, by simp⟩, ?_, .inr (.inl rfl)⟩
            rw [toRat_zero, zero_sub, abs_neg]
            exact abs_short_product_le hshort hscale
        · obtain ⟨d, hd, rfl⟩ := Option.map_eq_some_iff.1 h
          rw [← coeff_mul_coeff]
          exact ⟨d.scale, (fit_nearestAt hd).congr d.toRat_dropZeroSign⟩
    · rw [← coeff_mul_coeff]
      exact ⟨c.scale, fit_nearestAt h⟩

end Bookkeeping.Decimal
