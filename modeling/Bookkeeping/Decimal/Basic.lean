set_option autoImplicit false

/-! # Decimal amounts

An amount is a sign, a whole magnitude below `2 ^ 96` and the number of its decimals, at most
28; its value is `coeff / 10 ^ scale`, where `coeff` is the magnitude with the sign. The scale is
part of the amount: `5` and `5.00` have one value and are two amounts. Order is by value,
equality is by representation, and both bounds travel with the type.

The sign is part of the amount too, so zero has two forms. A zero that is written down or that a
sum comes to has no sign; only an amount whose digits were all rounded away keeps the sign it
had. Both forms have the value zero and stand at the same place in the order. -/

namespace Bookkeeping

/-! ## Powers of ten and two

The powers that scales, magnitudes and doubles are measured in. -/

/-- The number that is written as a one and `n` zeros. -/
def tenPow (n : Nat) : Nat := Nat.pow 10 n

/-- The `n`th power of two. -/
def twoPow (n : Nat) : Nat := Nat.pow 2 n

@[simp] theorem tenPow_zero : tenPow 0 = 1 := rfl

theorem tenPow_succ (n : Nat) : tenPow (n + 1) = tenPow n * 10 := rfl

theorem tenPow_pos (n : Nat) : 0 < tenPow n := Nat.pow_pos (by decide)

theorem tenPow_add (m n : Nat) : tenPow (m + n) = tenPow m * tenPow n := Nat.pow_add 10 m n

/-! ## Amounts -/

/-- The bound that every magnitude stays below: two to the power 96. -/
abbrev Decimal.magnitudeBound : Nat := 79228162514264337593543950336

/-- The largest number of decimals. -/
abbrev Decimal.maxScale : Nat := 28

/-- A decimal amount. -/
structure Decimal where
  /-- Whether the amount has a minus sign. -/
  negative : Bool
  /-- The digits of the amount as a whole number. -/
  magnitude : Nat
  /-- How many of the digits are decimals. -/
  scale : Nat
  magnitude_lt : magnitude < Decimal.magnitudeBound
  scale_le : scale ≤ Decimal.maxScale
deriving DecidableEq

namespace Decimal

/-- The digits of the amount as a signed whole number. -/
def coeff (a : Decimal) : Int :=
  if a.negative then -(a.magnitude : Int) else a.magnitude

/-- The amount with the given sign, magnitude and scale, when they are within bounds. -/
def ofSigned? (negative : Bool) (magnitude scale : Nat) : Option Decimal :=
  if h : magnitude < magnitudeBound ∧ scale ≤ maxScale then
    some ⟨negative, magnitude, scale, h.1, h.2⟩
  else none

/-- The amount with the given coefficient and scale, when they are within bounds. A zero has no
    sign. -/
def ofParts? (coeff : Int) (scale : Nat) : Option Decimal :=
  ofSigned? (coeff < 0) coeff.natAbs scale

/-- Zero without decimals. -/
def zero : Decimal := ⟨false, 0, 0, by decide, by decide⟩

/-- One without decimals. -/
def one : Decimal := ⟨false, 1, 0, by decide, by decide⟩

instance : Inhabited Decimal := ⟨zero⟩

/-- The exact value. -/
def toRat (a : Decimal) : Rat :=
  mkRat a.coeff (tenPow a.scale)

/-- Whether the value is zero, whatever the sign and the scale. -/
def isZero (a : Decimal) : Bool :=
  a.magnitude == 0

/-- The amount itself, without the sign if it is zero. -/
def dropZeroSign (a : Decimal) : Decimal :=
  { a with negative := a.negative && !a.isZero }

/-- The amount with the opposite sign; a zero stays as it is. -/
def neg (a : Decimal) : Decimal :=
  if a.isZero then a else { a with negative := !a.negative }

/-- The amount without its sign. -/
def abs (a : Decimal) : Decimal :=
  { a with negative := false }

/-- Order by value: both sides are brought to the sum of the scales. -/
instance : LT Decimal := ⟨fun a b => a.coeff * tenPow b.scale < b.coeff * tenPow a.scale⟩

instance : LE Decimal := ⟨fun a b => a.coeff * tenPow b.scale ≤ b.coeff * tenPow a.scale⟩

instance (a b : Decimal) : Decidable (a < b) :=
  inferInstanceAs (Decidable (a.coeff * tenPow b.scale < b.coeff * tenPow a.scale))

instance (a b : Decimal) : Decidable (a ≤ b) :=
  inferInstanceAs (Decidable (a.coeff * tenPow b.scale ≤ b.coeff * tenPow a.scale))

theorem lt_def (a b : Decimal) : a < b ↔ a.coeff * tenPow b.scale < b.coeff * tenPow a.scale :=
  Iff.rfl

theorem le_def (a b : Decimal) : a ≤ b ↔ a.coeff * tenPow b.scale ≤ b.coeff * tenPow a.scale :=
  Iff.rfl

theorem le_iff_not_lt (a b : Decimal) : a ≤ b ↔ ¬ b < a := by
  rw [le_def, lt_def, Int.not_lt]

/-- The whole number that the amount is, if it has no fraction. -/
def toInteger? (a : Decimal) : Option Int :=
  if a.coeff % tenPow a.scale = 0 then some (a.coeff / tenPow a.scale) else none

/-! ## Sign and coefficient -/

theorem ofSigned?_parts (a : Decimal) : ofSigned? a.negative a.magnitude a.scale = some a := by
  simp [ofSigned?, a.magnitude_lt, a.scale_le]

@[simp] theorem natAbs_coeff (a : Decimal) : a.coeff.natAbs = a.magnitude := by
  unfold coeff
  split
  · rw [Int.natAbs_neg, Int.natAbs_natCast]
  · exact Int.natAbs_natCast a.magnitude

theorem coeff_eq_zero (a : Decimal) : a.coeff = 0 ↔ a.magnitude = 0 := by
  rw [← Int.natAbs_eq_zero, natAbs_coeff]

theorem isZero_iff (a : Decimal) : a.isZero = true ↔ a.coeff = 0 := by
  rw [coeff_eq_zero, isZero, beq_iff_eq]

theorem coeff_neg_iff (a : Decimal) : a.coeff < 0 ↔ a.negative = true ∧ a.magnitude ≠ 0 := by
  unfold coeff
  split
  · next h =>
      simp only [h, true_and]
      omega
  · next h =>
      simp only [h, Bool.false_eq_true, false_and, iff_false]
      omega

@[simp] theorem coeff_dropZeroSign (a : Decimal) : a.dropZeroSign.coeff = a.coeff := by
  cases hn : a.negative <;> by_cases hz : a.magnitude = 0 <;>
    simp [coeff, dropZeroSign, isZero, hn, hz]

@[simp] theorem coeff_neg (a : Decimal) : a.neg.coeff = -a.coeff := by
  cases hn : a.negative <;> by_cases hz : a.magnitude = 0 <;> simp [coeff, neg, isZero, hn, hz]

@[simp] theorem coeff_abs (a : Decimal) : a.abs.coeff = a.magnitude := rfl

end Decimal

end Bookkeeping
