import Bookkeeping.Decimal.Basic

set_option autoImplicit false

/-! # Arithmetic on amounts

A sum or product is exact while it fits. When its magnitude is too large or it has too many
decimals, the fewest decimals are dropped that make it fit, rounding once from the exact
result, a half to the even neighbour; with no decimal left to drop there is no result. All
operations share this one rule, `fit`.

Zero is neutral in form as well as in value: adding zero returns the other operand with its own
sign and scale. A product that is rounded away altogether is a zero with the sign of the
product, unless both magnitudes are short. The inverse `1 / p` is found by long division, nine
digits at a time. -/

namespace Bookkeeping.Decimal

/-! ## Rounding -/

/-- The whole number nearest to `n / d`; a half goes to the even neighbour. -/
def nearest (n d : Nat) : Nat :=
  let q := n / d
  let r := n % d
  if d < 2 * r ∨ (d = 2 * r ∧ q % 2 = 1) then q + 1 else q

/-- The whole number nearest to `n / d`; a half goes up. -/
def nearestUp (n d : Nat) : Nat :=
  if d ≤ 2 * (n % d) then n / d + 1 else n / d

/-- A magnitude with `k` decimals dropped, rounded to nearest, a half to even. -/
def dropDecimals (n k : Nat) : Nat :=
  nearest n (tenPow k)

theorem nearest_one (n : Nat) : nearest n 1 = n := by
  simp [nearest, Nat.mod_one]

@[simp] theorem dropDecimals_zero (n : Nat) : dropDecimals n 0 = n := by
  rw [dropDecimals, tenPow_zero, nearest_one]

theorem nearest_le (n d : Nat) (hd : 0 < d) : nearest n d ≤ n := by
  have hn : d * (n / d) + n % d = n := Nat.div_add_mod n d
  have hr : n % d < d := Nat.mod_lt n hd
  have hq : n / d ≤ d * (n / d) := Nat.le_mul_of_pos_left _ hd
  unfold nearest
  dsimp only
  split <;> omega

theorem dropDecimals_le (n k : Nat) : dropDecimals n k ≤ n :=
  nearest_le n (tenPow k) (tenPow_pos k)

/-- The value `n / 10 ^ s` with the given sign as an amount with `t` decimals or the fewest less
    that make it fit. -/
def fitAt (negative : Bool) (n s : Nat) : (t : Nat) → t ≤ maxScale → Option Decimal
  | 0, ht =>
      if h : dropDecimals n s < magnitudeBound then some ⟨negative, dropDecimals n s, 0, h, ht⟩
      else none
  | t + 1, ht =>
      if h : dropDecimals n (s - (t + 1)) < magnitudeBound then
        some ⟨negative, dropDecimals n (s - (t + 1)), t + 1, h, ht⟩
      else fitAt negative n s t (Nat.le_of_succ_le ht)

/-- The value `n / 10 ^ s` as an amount: exact at scale `s` if that is within bounds, else with
    the fewest decimals dropped that make it fit. A negative value keeps its sign even if it is
    rounded to zero. -/
def fit (n : Int) (s : Nat) : Option Decimal :=
  fitAt (n < 0) n.natAbs s (min s maxScale) (Nat.min_le_right s maxScale)

/-- A result within bounds is exact. -/
theorem fit_of_lt (n : Int) (s : Nat) (hn : n.natAbs < magnitudeBound) (hs : s ≤ maxScale) :
    fit n s = some ⟨decide (n < 0), n.natAbs, s, hn, hs⟩ := by
  have hmin : min s maxScale = s := Nat.min_eq_left hs
  unfold fit
  generalize hp : Nat.min_le_right s maxScale = p
  clear hp
  revert p
  rw [hmin]
  intro p
  cases s with
  | zero => simp [fitAt, hn]
  | succ t => simp [fitAt, hn]

/-! ## Sum, difference, product -/

/-- The sum, or none when it leaves the range. -/
def add (a b : Decimal) : Option Decimal :=
  if a.isZero then some b
  else if b.isZero then some a
  else
    let s := max a.scale b.scale
    fit (a.coeff * tenPow (s - a.scale) + b.coeff * tenPow (s - b.scale)) s

/-- The difference, or none when it leaves the range. -/
def sub (a b : Decimal) : Option Decimal :=
  add a b.neg

/-- Short magnitudes are those that a 32-bit word holds. -/
abbrev shortBound : Nat := 4294967296

/-- The scale up to which a product of short magnitudes is worked out. -/
abbrev shortProductScale : Nat := 47

/-- The product, or none when it leaves the range. A product of two short magnitudes whose
    decimals together exceed `shortProductScale` is nothing but decimals and counts as zero;
    below that a short product that is rounded to zero has no sign. -/
def mul (a b : Decimal) : Option Decimal :=
  if a.isZero ∨ b.isZero then some zero
  else
    let product := fit (a.coeff * b.coeff) (a.scale + b.scale)
    if a.magnitude < shortBound ∧ b.magnitude < shortBound then
      if shortProductScale < a.scale + b.scale then some zero else product.map dropZeroSign
    else product

/-! ## The inverse -/

/-- How many of the last zeros of `q` go, of at most `k` at once. -/
def stripZeros (k : Nat) (q s : Nat) : Nat × Nat :=
  if k ≤ s ∧ q % tenPow k = 0 then (q / tenPow k, s - k) else (q, s)

/-- Strips eight zeros at a time while the low word of the quotient is zero. -/
def stripEights (q s : Nat) : Nat × Nat :=
  if q % shortBound = 0 ∧ 8 ≤ s ∧ q % tenPow 8 = 0 then stripEights (q / tenPow 8) (s - 8) else (q, s)
termination_by s
decreasing_by omega

/-- The zeros at the end of a quotient that did not come out even are stripped, by eights while
    the low word is zero and then by four, two and one, each at most once. -/
def stripQuotient (q s : Nat) : Nat × Nat :=
  let (q, s) := stripEights q s
  let (q, s) := stripZeros 4 q s
  let (q, s) := stripZeros 2 q s
  stripZeros 1 q s

/-- The largest number of further digits, at most `x`, that a quotient `q` with `room` decimals
    left can take. -/
def digitsAhead (q room : Nat) : Nat → Nat
  | 0 => 0
  | x + 1 => if x + 1 ≤ room ∧ q * tenPow (x + 1) < magnitudeBound then x + 1 else digitsAhead q room x

theorem digitsAhead_le_room (q room x : Nat) : digitsAhead q room x ≤ room := by
  induction x with
  | zero => exact Nat.zero_le room
  | succ x ih =>
      unfold digitsAhead
      split
      · next h => exact h.1
      · exact ih

/-- Long division: `q` are the digits so far and `r` the remainder on division by `d`, with `s`
    decimals (negative while digits in front of the point are still missing). Each round takes
    up to nine more digits, until the division comes out even or no further digit fits; the
    flag tells whether a remainder was ever left. The room is measured before the digits are
    known, so a round may end with a quotient that is too large; it gives its last digit back. -/
def longDivide (d q r : Nat) (s : Int) (uneven : Bool) : Nat × Int × Bool :=
  if r = 0 then
    if 0 ≤ s then (q, s, uneven)
    else
      let x := min 9 (-s).toNat
      longDivide d (q * tenPow x) 0 (s + x) uneven
  else
    match h : digitsAhead q (28 - s).toNat 9 with
    | 0 => (if d < 2 * r ∨ (d = 2 * r ∧ q % 2 = 1) then q + 1 else q, s, true)
    | x + 1 =>
        let q' := q * tenPow (x + 1) + r * tenPow (x + 1) / d
        let r' := r * tenPow (x + 1) % d
        if q' < magnitudeBound then longDivide d q' r' (s + (x + 1)) true
        else (nearest (q' * d + r') (10 * d), s + x, true)
termination_by (28 - s).toNat
decreasing_by
  · omega
  · have := digitsAhead_le_room q (28 - s).toNat 9
    omega

/-- One divided by an amount; none for zero. -/
def inverse? (p : Decimal) : Option Decimal :=
  if p.isZero then none
  else
    let d := p.magnitude
    let (q, s, uneven) := longDivide d (1 / d) (1 % d) (-p.scale) false
    let (q, s) := if uneven then stripQuotient q s.toNat else (q, s.toNat)
    ofParts? (p.coeff.sign * q) s

/-! ## Decimals of a result -/

/-- The amount rounded to at most `places` decimals, a half to even. -/
def roundTo (places : Nat) (a : Decimal) : Decimal :=
  if h : a.scale ≤ places then a
  else
    ⟨a.negative, dropDecimals a.magnitude (a.scale - places), places,
      Nat.lt_of_le_of_lt (dropDecimals_le _ _) a.magnitude_lt,
      Nat.le_trans (Nat.le_of_lt (Nat.lt_of_not_le h)) a.scale_le⟩

/-- The amount of the same value without zeros at the end of its decimals and without a sign if
    it is zero. -/
def normalize (a : Decimal) : Decimal :=
  if h : 0 < a.scale ∧ a.magnitude % 10 = 0 then
    normalize ⟨a.negative, a.magnitude / 10, a.scale - 1,
      Nat.lt_of_le_of_lt (Nat.div_le_self _ _) a.magnitude_lt,
      Nat.le_trans (Nat.sub_le _ _) a.scale_le⟩
  else a.dropZeroSign
termination_by a.scale
decreasing_by exact Nat.sub_lt h.1 Nat.one_pos

/-! ## Tolerance -/

/-- Amounts that differ by no more than this, a millionth, count as one. -/
def tolerance : Decimal := ⟨false, 1, 6, one.magnitude_lt, by decide⟩

/-- Whether an amount is below the tolerance in magnitude. -/
def isNegligible (a : Decimal) : Bool :=
  decide (a.abs < tolerance)

/-- Whether two amounts differ by at most the tolerance. A difference out of range is larger. -/
def near (a b : Decimal) : Bool :=
  match sub a b with
  | some d => decide (d.abs ≤ tolerance)
  | none => false

end Bookkeeping.Decimal
