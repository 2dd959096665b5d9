import Bookkeeping.Decimal.Text
import Bookkeeping.Proofs.Decimal.ExactSum

set_option autoImplicit false

/-! # Presented funds

A presented fund shows a value and nothing else: `fundTextOf` says which text belongs to a value,
and two amounts of one value are presented alike, whatever their scales. -/

namespace Bookkeeping.Decimal

/-- The written form of a magnitude with decimals and perhaps a minus sign. -/
def written (negative : Bool) (n s : Nat) : String :=
  String.ofList ((if negative then ['-'] else []) ++ Text.digits (n / tenPow s) ++
    if s = 0 then [] else '.' :: Text.fixedDigits s n)

theorem toText_eq_written (a : Decimal) : a.toText = written a.negative a.magnitude a.scale := rfl

/-- A magnitude with decimals, without the zeros at the end of these. -/
def withoutZeros (n : Nat) : Nat → Nat × Nat
  | 0 => (n, 0)
  | s + 1 => if n % 10 = 0 then withoutZeros (n / 10) s else (n, s + 1)

/-- The text of a value: rounded to the nearest hundred-millionth, a half to even, and written
    without zeros at the end. -/
def fundTextOf (v : ℚ) : String :=
  let units := nearest (v.num.natAbs * tenPow fundPlaces) v.den
  let shown := withoutZeros units fundPlaces
  written (decide (v < 0) && units != 0) shown.1 shown.2

/-! ## Zeros at the end -/

theorem withoutZeros_mul (n s k : Nat) :
    withoutZeros (n * tenPow k) (s + k) = withoutZeros n s := by
  induction k with
  | zero => rw [tenPow_zero, Nat.mul_one, Nat.add_zero]
  | succ k ih =>
      have hn : n * tenPow (k + 1) = n * tenPow k * 10 := by rw [tenPow_succ, Nat.mul_assoc]
      rw [hn, ← Nat.add_assoc, withoutZeros, if_pos (Nat.mul_mod_left _ 10),
        Nat.mul_div_cancel _ (by decide), ih]

theorem normalize_eq (a : Decimal) :
    (a.normalize.magnitude, a.normalize.scale) = withoutZeros a.magnitude a.scale ∧
      a.normalize.negative = (a.negative && a.magnitude != 0) := by
  obtain ⟨negative, n, s, hn, hs⟩ := a
  induction s generalizing n with
  | zero =>
      rw [normalize, dif_neg (by simp)]
      exact ⟨rfl, rfl⟩
  | succ s ih =>
      rw [normalize]
      by_cases hzero : n % 10 = 0
      · rw [dif_pos ⟨Nat.succ_pos s, hzero⟩]
        obtain ⟨hparts, hnegative⟩ :=
          ih (n / 10) (Nat.lt_of_le_of_lt (Nat.div_le_self n 10) hn) (Nat.le_of_succ_le hs)
        refine ⟨hparts.trans ?_, hnegative.trans ?_⟩
        · rw [withoutZeros, if_pos hzero]
        · have hne : (n / 10 != 0) = (n != 0) := by
            rw [Bool.eq_iff_iff, bne_iff_ne, bne_iff_ne]
            omega
          rw [hne]
      · rw [dif_neg (fun h => hzero h.2), withoutZeros, if_neg hzero]
        exact ⟨rfl, rfl⟩

theorem toText_normalize (a : Decimal) :
    a.normalize.toText = written (a.negative && a.magnitude != 0)
      (withoutZeros a.magnitude a.scale).1 (withoutZeros a.magnitude a.scale).2 := by
  obtain ⟨hparts, hnegative⟩ := a.normalize_eq
  rw [toText_eq_written, hnegative, ← hparts]

/-! ## Rounding depends on the value -/

/-- The hundred-millionths of an amount, from its value alone. -/
theorem nearest_toRat (a : Decimal) (k : Nat) :
    nearest (a.toRat.num.natAbs * k) a.toRat.den = nearest (a.magnitude * k) (tenPow a.scale) := by
  have hq : (a.toRat.num : ℚ) * tenPow a.scale = a.coeff * a.toRat.den := by
    have hden : (a.toRat.den : ℚ) ≠ 0 := Nat.cast_ne_zero.2 a.toRat.den_nz
    have hvalue : (a.toRat.num : ℚ) = a.toRat * a.toRat.den := (Rat.mul_den_eq_num _).symm
    rw [cast_tenPow, hvalue, ← toRat_mul_pow]
    ring
  have hint : a.toRat.num * tenPow a.scale = a.coeff * a.toRat.den := by exact_mod_cast hq
  have hnat : a.toRat.num.natAbs * tenPow a.scale = a.magnitude * a.toRat.den := by
    have := congrArg Int.natAbs hint
    simpa [Int.natAbs_mul] using this
  -- both fractions brought to the product of their denominators
  have hleft : a.toRat.num.natAbs * k * tenPow a.scale = a.magnitude * k * a.toRat.den := by
    rw [Nat.mul_right_comm, hnat, Nat.mul_right_comm]
  rw [← nearest_mul_mul _ _ _ (tenPow_pos a.scale), hleft, Nat.mul_comm a.toRat.den,
    nearest_mul_mul _ _ _ a.toRat.den_pos]

/-- Rounding to eight decimals keeps the hundred-millionths. -/
theorem roundTo_places (a : Decimal) :
    (a.roundTo fundPlaces).negative = a.negative ∧ (a.roundTo fundPlaces).scale ≤ fundPlaces ∧
      (a.roundTo fundPlaces).magnitude * tenPow (fundPlaces - (a.roundTo fundPlaces).scale) =
        nearest (a.magnitude * tenPow fundPlaces) (tenPow a.scale) := by
  unfold roundTo
  split
  · next hscale =>
      -- nothing to round: the hundred-millionths are a whole number
      refine ⟨rfl, hscale, ?_⟩
      have hsplit : tenPow fundPlaces = tenPow (fundPlaces - a.scale) * tenPow a.scale := by
        rw [← tenPow_add, Nat.sub_add_cancel hscale]
      rw [hsplit, ← Nat.mul_assoc, nearest_mul _ _ (tenPow_pos _)]
  · next hscale =>
      refine ⟨rfl, Nat.le_refl _, ?_⟩
      have hsplit : tenPow a.scale = tenPow (a.scale - fundPlaces) * tenPow fundPlaces := by
        rw [← tenPow_add, Nat.sub_add_cancel (Nat.le_of_lt (Nat.lt_of_not_le hscale))]
      show dropDecimals a.magnitude (a.scale - fundPlaces) * tenPow (fundPlaces - fundPlaces) = _
      rw [Nat.sub_self, tenPow_zero, Nat.mul_one, hsplit, nearest_mul_mul _ _ _ (tenPow_pos _),
        dropDecimals]

theorem toRat_neg_iff (a : Decimal) : a.toRat < 0 ↔ a.coeff < 0 := by
  have hpow : (0 : ℚ) < 10 ^ a.scale := by positivity
  rw [toRat_eq, div_lt_iff₀ hpow, zero_mul]
  exact Int.cast_lt_zero

/-- The text of a presented fund is that of its value. -/
theorem fundText_eq (a : Decimal) : a.fundText = fundTextOf a.toRat := by
  obtain ⟨hnegative, hscale, hunits⟩ := a.roundTo_places
  rw [fundText, toText_normalize, hnegative]
  generalize a.roundTo fundPlaces = b at hscale hunits
  unfold fundTextOf
  rw [nearest_toRat, ← hunits]
  dsimp only
  have hshown : withoutZeros (b.magnitude * tenPow (fundPlaces - b.scale)) fundPlaces =
      withoutZeros b.magnitude b.scale := by
    have := withoutZeros_mul b.magnitude b.scale (fundPlaces - b.scale)
    rwa [Nat.add_sub_cancel' hscale] at this
  have hsign : (a.negative && b.magnitude != 0) =
      (decide (a.toRat < 0) && b.magnitude * tenPow (fundPlaces - b.scale) != 0) := by
    rw [Bool.eq_iff_iff, Bool.and_eq_true, Bool.and_eq_true, bne_iff_ne, bne_iff_ne,
      decide_eq_true_iff, toRat_neg_iff, coeff_neg_iff]
    have hpos := tenPow_pos (fundPlaces - b.scale)
    constructor
    · rintro ⟨hneg, hne⟩
      refine ⟨⟨hneg, ?_⟩, Nat.mul_ne_zero hne (Nat.ne_of_gt hpos)⟩
      -- a magnitude of zero would have been rounded to zero
      intro hzero
      rw [hzero, Nat.zero_mul] at hunits
      have hle := nearest_le 0 (tenPow a.scale) (tenPow_pos _)
      rw [← hunits, Nat.le_zero] at hle
      exact Nat.mul_ne_zero hne (Nat.ne_of_gt hpos) hle
    · rintro ⟨⟨hneg, _⟩, hne⟩
      exact ⟨hneg, fun hzero => hne (by rw [hzero, Nat.zero_mul])⟩
  rw [hshown, hsign]

end Bookkeeping.Decimal
