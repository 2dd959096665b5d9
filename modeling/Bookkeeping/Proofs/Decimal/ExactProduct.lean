import Bookkeeping.Proofs.Decimal.ExactSum

set_option autoImplicit false

/-! # Exact products

A product that an amount can hold is given exactly, whatever the scales of its factors: it comes
to nothing but for a factor of zero, and the shortcut for short magnitudes gives up no digit that
an amount could hold. So whether products and sums are exact depends on the values of amounts
only, `MultipliesTo.congr` and `SumsTo.congr`. -/

namespace Bookkeeping.Decimal

/-! ## One product -/

/-- The coefficient of a product at the sum of the scales. -/
theorem coeff_mul_coeff (a b : Decimal) :
    ((a.coeff * b.coeff : Int) : ℚ) / 10 ^ (a.scale + b.scale) = a.toRat * b.toRat := by
  rw [toRat_eq, toRat_eq, div_mul_div_comm, ← pow_add, Int.cast_mul]

theorem toRat_dropZeroSign (a : Decimal) : a.dropZeroSign.toRat = a.toRat := by
  rw [toRat_eq, toRat_eq, coeff_dropZeroSign]
  rfl

/-- Short magnitudes whose decimals together go past `shortProductScale` have a product with
    more decimals than an amount can hold. -/
theorem not_exact_of_short {a b c : Decimal} (ha : a.isZero = false) (hb : b.isZero = false)
    (hshort : a.magnitude < shortBound ∧ b.magnitude < shortBound)
    (hscale : shortProductScale < a.scale + b.scale) : c.toRat ≠ a.toRat * b.toRat := by
  intro h
  have hnonzero : c.magnitude ≠ 0 := by
    intro hzero
    have hc : c.toRat = 0 := (toRat_eq_zero_iff c).2 (by simp [isZero, hzero])
    rw [hc, zero_eq_mul, toRat_eq_zero_iff, toRat_eq_zero_iff, ha, hb] at h
    simp at h
  have hcoeff : c.coeff * tenPow (a.scale + b.scale) = a.coeff * b.coeff * tenPow c.scale := by
    have hq := h.trans (coeff_mul_coeff a b).symm
    rw [toRat_eq, div_eq_div_iff (by positivity) (by positivity), ← cast_tenPow,
      ← cast_tenPow] at hq
    exact_mod_cast hq
  have hmagnitude :
      c.magnitude * tenPow (a.scale + b.scale) = a.magnitude * b.magnitude * tenPow c.scale := by
    have := congrArg Int.natAbs hcoeff
    simpa [Int.natAbs_mul] using this
  have hproduct : a.magnitude * b.magnitude < shortBound * shortBound :=
    Nat.mul_lt_mul'' hshort.1 hshort.2
  -- one unit of what `c` can hold is already larger than the product
  have hlow : tenPow 48 ≤ c.magnitude * tenPow (a.scale + b.scale) :=
    (Nat.pow_le_pow_right (by decide) hscale).trans
      (Nat.le_mul_of_pos_left _ (Nat.pos_of_ne_zero hnonzero))
  have hhigh : a.magnitude * b.magnitude * tenPow c.scale ≤
      shortBound * shortBound * tenPow maxScale :=
    Nat.mul_le_mul hproduct.le (Nat.pow_le_pow_right (by decide) c.scale_le)
  have hgap : shortBound * shortBound * tenPow maxScale < tenPow 48 := by decide
  omega

/-- A product that some amount holds is given exactly. -/
theorem checkedMul_exact {a b c : Decimal} (h : c.toRat = a.toRat * b.toRat) :
    ∃ d, a.checkedMul b = .ok d ∧ d.toRat = a.toRat * b.toRat := by
  suffices hmul : ∃ d, a.mul b = some d ∧ d.toRat = a.toRat * b.toRat by
    obtain ⟨d, hd, hvalue⟩ := hmul
    exact ⟨d, by simp [checkedMul, hd], hvalue⟩
  unfold mul
  split
  · next hzero =>
      refine ⟨zero, rfl, ?_⟩
      rw [toRat_zero, zero_eq_mul, toRat_eq_zero_iff, toRat_eq_zero_iff]
      exact hzero
  · next hzero =>
      have hbound : c.coeff.natAbs < magnitudeBound := by
        rw [natAbs_coeff]
        exact c.magnitude_lt
      obtain ⟨d, hd, hvalue⟩ := fit_value (coeff_mul_coeff a b) c.scale_le
        (h ▸ toRat_mul_pow c) hbound
      dsimp only
      rw [hd]
      split
      · next hshort =>
          split
          · next hscale =>
              rw [not_or, Bool.not_eq_true, Bool.not_eq_true] at hzero
              exact absurd h (not_exact_of_short hzero.1 hzero.2 hshort hscale)
          · exact ⟨d.dropZeroSign, rfl, d.toRat_dropZeroSign.trans hvalue⟩
      · exact ⟨d, rfl, hvalue⟩

/-- The product is this amount, and it is not rounded. -/
def MultipliesTo (a b product : Decimal) : Prop :=
  a.checkedMul b = .ok product ∧ product.toRat = a.toRat * b.toRat

/-- An amount of the same value has a product of the same value. -/
theorem MultipliesTo.congr {a b product other : Decimal} (h : MultipliesTo a b product)
    (heq : a.toRat = other.toRat) :
    ∃ found, other.checkedMul b = .ok found ∧ found.toRat = product.toRat := by
  obtain ⟨_, hvalue⟩ := h
  rw [heq] at hvalue
  obtain ⟨found, hfound, htoRat⟩ := checkedMul_exact hvalue
  exact ⟨found, hfound, htoRat.trans hvalue.symm⟩

/-! ## Sums -/

/-- The amounts add up to this one, and can be added up exactly in any order. -/
def SumsTo (amounts : List Decimal) (total : Decimal) : Prop :=
  ExactlySummable amounts ∧ checkedSum amounts = .ok total

section

variable {amounts others : List Decimal}

/-- Whether amounts can be added up exactly depends on their values only. -/
theorem SummableAt.congr {s : Nat} (h : SummableAt s amounts)
    (heq : amounts.map toRat = others.map toRat) : SummableAt s others := by
  refine ⟨h.scale_le, ?_, ?_⟩
  · intro a ha
    have hmem : a.toRat ∈ amounts.map toRat := heq ▸ List.mem_map_of_mem ha
    obtain ⟨b, hb, hab⟩ := List.mem_map.1 hmem
    rw [← hab]
    exact h.whole b hb
  · have habs : (others.map fun a => |a.toRat|) = amounts.map fun a => |a.toRat| := by
      have hmap := congrArg (List.map fun x : ℚ => |x|) heq
      rw [List.map_map, List.map_map] at hmap
      exact hmap.symm
    rw [habs]
    exact h.bounded

theorem SumsTo.toRat_eq {total : Decimal} (h : SumsTo amounts total) :
    total.toRat = (amounts.map toRat).sum := by
  obtain ⟨c, hc, hvalue⟩ := h.1.checkedSum
  obtain rfl : total = c := Except.ok.inj (h.2.symm.trans hc)
  exact hvalue

/-- Amounts of the same values have a sum of the same value. -/
theorem SumsTo.congr {total : Decimal} (h : SumsTo amounts total)
    (heq : amounts.map toRat = others.map toRat) :
    ∃ found, checkedSum others = .ok found ∧ found.toRat = total.toRat := by
  obtain ⟨s, hsum⟩ := h.1
  obtain ⟨found, hfound, hvalue⟩ :=
    ExactlySummable.checkedSum ⟨s, hsum.congr heq⟩
  exact ⟨found, hfound, by rw [hvalue, h.toRat_eq, heq]⟩

end

end Bookkeeping.Decimal
