import Bookkeeping.Text
import Mathlib.Algebra.Group.Nat.Defs

set_option autoImplicit false

/-! # Digits are read back

Whatever way a number is written, with or without zeros in front, reading its digits gives the
number. So different numbers are written differently. -/

namespace Bookkeeping.Text

/-! ## Reading digits -/

theorem digit?_digitChar {d : Nat} (h : d < 10) : digit? (Nat.digitChar d) = some d := by
  revert d
  decide

theorem numberFrom_append (n : Nat) (front back : List Char) :
    numberFrom n (front ++ back) = (numberFrom n front).bind (numberFrom · back) := by
  induction front generalizing n with
  | nil => rfl
  | cons c rest ih =>
      rw [List.cons_append, numberFrom, numberFrom, Option.bind_assoc]
      exact congrArg _ (funext fun d => ih (10 * n + d))

theorem numberFrom_digitChar (n : Nat) {d : Nat} (h : d < 10) :
    numberFrom n [Nat.digitChar d] = some (10 * n + d) := by
  rw [numberFrom, digit?_digitChar h]
  rfl

/-- A digit is no sign. -/
theorem ne_sign_of_digit {c : Char} (h : digit? c ≠ none) : c ≠ '-' ∧ c ≠ '+' := by
  constructor
  · rintro rfl
    exact h (by decide)
  · rintro rfl
    exact h (by decide)

/-- What can be read as a number are digits. -/
theorem digit?_of_numberFrom {n m : Nat} {cs : List Char} (h : numberFrom n cs = some m) :
    ∀ c ∈ cs, digit? c ≠ none := by
  induction cs generalizing n with
  | nil => simp
  | cons c rest ih =>
      obtain ⟨d, hd, hrest⟩ := Option.bind_eq_some_iff.1 h
      intro x hx
      rcases List.mem_cons.1 hx with rfl | hx
      · simp [hd]
      · exact ih hrest x hx

/-- A number does not get smaller by digits that continue it. -/
theorem le_of_numberFrom {n m : Nat} {cs : List Char} (h : numberFrom n cs = some m) : n ≤ m := by
  induction cs generalizing n with
  | nil => exact Nat.le_of_eq (Option.some.inj h)
  | cons c rest ih =>
      obtain ⟨d, _, hrest⟩ := Option.bind_eq_some_iff.1 h
      have := ih hrest
      omega

/-! ## Reading what was written -/

theorem numberFrom_digits (n : Nat) : numberFrom 0 (digits n) = some n := by
  induction n using Nat.strongRecOn with
  | ind n ih =>
      rw [digits, Nat.toDigits_eq_if (by decide)]
      split
      · next hn => rw [numberFrom_digitChar 0 hn, Nat.mul_zero, Nat.zero_add]
      · have hfront : numberFrom 0 (Nat.toDigits 10 (n / 10)) = some (n / 10) :=
          ih (n / 10) (by omega)
        rw [numberFrom_append, hfront, Option.bind_some,
          numberFrom_digitChar _ (Nat.mod_lt n (by decide)), Nat.div_add_mod]

theorem numberFrom_paddedDigits (width n : Nat) : numberFrom 0 (paddedDigits width n) = some n := by
  have hzeros (k : Nat) : numberFrom 0 (List.replicate k '0') = some 0 := by
    induction k with
    | zero => rfl
    | succ k ih => exact ih
  rw [paddedDigits, numberFrom_append, hzeros, Option.bind_some, numberFrom_digits]

theorem numberFrom_fixedDigits (m width n : Nat) :
    numberFrom m (fixedDigits width n) = some (m * 10 ^ width + n % 10 ^ width) := by
  induction width generalizing n with
  | zero => simp [fixedDigits, numberFrom, Nat.mod_one]
  | succ width ih =>
      rw [fixedDigits, numberFrom_append, ih, Option.bind_some,
        numberFrom_digitChar _ (Nat.mod_lt n (by decide))]
      -- the last digit and the ones before it make up the remainder
      have hmod : n % 10 ^ (width + 1) = 10 * (n / 10 % 10 ^ width) + n % 10 := by
        rw [Nat.pow_succ', Nat.mod_mul, Nat.add_comm]
      rw [hmod, Nat.pow_succ', Nat.mul_add, Nat.mul_left_comm, Nat.add_assoc]

theorem number_eq_numberFrom {cs : List Char} (h : cs ≠ []) : number cs = numberFrom 0 cs := by
  cases cs with
  | nil => exact absurd rfl h
  | cons c rest => rfl

theorem digit?_of_number {cs : List Char} {n : Nat} (h : number cs = some n) :
    ∀ c ∈ cs, digit? c ≠ none := by
  cases cs with
  | nil => simp
  | cons c rest => exact digit?_of_numberFrom h

theorem number_digits (n : Nat) : number (digits n) = some n := by
  rw [number_eq_numberFrom (digits_ne_nil n), numberFrom_digits]

theorem paddedDigits_ne_nil (width n : Nat) : paddedDigits width n ≠ [] :=
  List.append_ne_nil_of_right_ne_nil _ (digits_ne_nil n)

theorem number_paddedDigits (width n : Nat) : number (paddedDigits width n) = some n := by
  rw [number_eq_numberFrom (paddedDigits_ne_nil width n), numberFrom_paddedDigits]

theorem number_fixedDigits {width n : Nat} (hwidth : 0 < width) (h : n < 10 ^ width) :
    number (fixedDigits width n) = some n := by
  have hne : fixedDigits width n ≠ [] := by
    rw [← List.length_pos_iff, length_fixedDigits]
    exact hwidth
  rw [number_eq_numberFrom hne, numberFrom_fixedDigits, Nat.mod_eq_of_lt h, Nat.zero_mul,
    Nat.zero_add]

theorem length_paddedDigits {width n : Nat} (hwidth : 0 < width) (h : n < 10 ^ width) :
    (paddedDigits width n).length = width := by
  have hle : (digits n).length ≤ width := (Nat.length_toDigits_le_iff (by decide) hwidth).2 h
  rw [paddedDigits, List.length_append, List.length_replicate, Nat.sub_add_cancel hle]

/-! ## Different numbers are written differently -/

theorem paddedDigits_injective {width a b : Nat}
    (h : paddedDigits width a = paddedDigits width b) : a = b := by
  have hread := congrArg (numberFrom 0) h
  rw [numberFrom_paddedDigits, numberFrom_paddedDigits] at hread
  exact Option.some.inj hread

theorem fixedDigits_injective {width a b : Nat} (ha : a < 10 ^ width) (hb : b < 10 ^ width)
    (h : fixedDigits width a = fixedDigits width b) : a = b := by
  have hread := congrArg (numberFrom 0) h
  rw [numberFrom_fixedDigits, numberFrom_fixedDigits, Nat.mod_eq_of_lt ha, Nat.mod_eq_of_lt hb,
    Nat.zero_mul, Nat.zero_add, Nat.zero_add] at hread
  exact Option.some.inj hread

/-- A sign is not a digit. -/
theorem paddedDigits_ne_cons {width n : Nat} {c : Char} (hc : digit? c = none) (rest : List Char) :
    paddedDigits width n ≠ c :: rest := by
  intro h
  exact digit?_of_numberFrom (numberFrom_paddedDigits width n) c (h ▸ List.mem_cons_self) hc

theorem padded_injective {width : Nat} {a b : Int} (h : padded width a = padded width b) :
    a = b := by
  have hminus : digit? '-' = none := by decide
  unfold padded at h
  split at h <;> split at h
  · have habs := paddedDigits_injective (List.cons.inj h).2
    omega
  · exact absurd h.symm (paddedDigits_ne_cons hminus _)
  · exact absurd h (paddedDigits_ne_cons hminus _)
  · have habs := paddedDigits_injective h
    omega

theorem padded_ne_nil (width : Nat) (i : Int) : padded width i ≠ [] := by
  unfold padded
  split
  · exact List.cons_ne_nil _ _
  · exact paddedDigits_ne_nil _ _

end Bookkeeping.Text
