import Bookkeeping.Proofs.Decimal.ExactSum

set_option autoImplicit false

/-! # Arithmetic that refuses to round

Subtotals and reports can be computed with any `Arithmetic`. With `checked`, results are rounded
to what fits, as they are in earnest. With `exact` a result that would have to be rounded counts
as a failure, so whatever is computed with it has gone through exact sums and products only. -/

namespace Bookkeeping

/-- How amounts are added and multiplied. -/
structure Arithmetic where
  add : Decimal → Decimal → Except Failure Decimal
  mul : Decimal → Decimal → Except Failure Decimal

namespace Arithmetic

/-- Results are rounded to what fits; those out of range fail. -/
def checked : Arithmetic := ⟨Decimal.checkedAdd, Decimal.checkedMul⟩

/-- A result that has the value it should have. -/
def ifExact (value : ℚ) (result : Except Failure Decimal) : Except Failure Decimal := do
  let c ← result
  if c.toRat = value then return c else throw .overflow

/-- Results that are not exact fail. -/
def exact : Arithmetic where
  add a b := ifExact (a.toRat + b.toRat) (a.checkedAdd b)
  mul a b := ifExact (a.toRat * b.toRat) (a.checkedMul b)

/-- The sum of amounts, added one after another. -/
def sum (ar : Arithmetic) (amounts : List Decimal) : Except Failure Decimal :=
  amounts.foldlM ar.add .zero

theorem toRat_of_ifExact {value : ℚ} {result : Except Failure Decimal} {c : Decimal}
    (h : ifExact value result = .ok c) : c.toRat = value := by
  obtain ⟨d, _, hd⟩ := bind_eq_ok.1 h
  split at hd
  · next hvalue =>
      cases hd
      exact hvalue
  · cases hd

theorem toRat_of_exact_add {a b c : Decimal} (h : exact.add a b = .ok c) :
    c.toRat = a.toRat + b.toRat :=
  toRat_of_ifExact h

theorem toRat_of_exact_mul {a b c : Decimal} (h : exact.mul a b = .ok c) :
    c.toRat = a.toRat * b.toRat :=
  toRat_of_ifExact h

theorem toRat_of_exact_sum {amounts : List Decimal} {total : Decimal}
    (h : exact.sum amounts = .ok total) : total.toRat = (amounts.map (·.toRat)).sum := by
  suffices hfrom : ∀ start : Decimal, amounts.foldlM exact.add start = .ok total →
      total.toRat = start.toRat + (amounts.map (·.toRat)).sum by
    rw [hfrom .zero h, Decimal.toRat_zero, zero_add]
  clear h
  induction amounts with
  | nil =>
      intro start h
      cases h
      simp
  | cons a rest ih =>
      intro start h
      rw [List.foldlM_cons] at h
      obtain ⟨sum, hsum, hrest⟩ := bind_eq_ok.1 h
      rw [ih sum hrest, toRat_of_exact_add hsum, List.map_cons, List.sum_cons, add_assoc]

theorem confirms_ifExact (value : ℚ) (result : Except Failure Decimal) :
    Confirms (ifExact value result) result := by
  intro c h
  obtain ⟨d, hresult, hd⟩ := bind_eq_ok.1 h
  split at hd
  · cases hd
    exact hresult
  · cases hd

theorem confirms_add (a b : Decimal) : Confirms (exact.add a b) (a.checkedAdd b) :=
  confirms_ifExact _ _

theorem confirms_sum (amounts : List Decimal) :
    Confirms (exact.sum amounts) (Decimal.checkedSum amounts) :=
  .foldlM confirms_add amounts .zero

end Arithmetic

end Bookkeeping
