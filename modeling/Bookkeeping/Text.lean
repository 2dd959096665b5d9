set_option autoImplicit false

/-! # Blanks and digits

A character is blank when Unicode gives it the property `White_Space`: the space, the controls
from tab to carriage return, the next-line control, and the wider spaces and separators. The
zero-width characters are not blank. Operator symbols are trimmed of blanks, and blanks may
stand around the parts of a written date.

Whole numbers are written as digit characters, and read back. `digits` writes a number without
leading zeros, `fixedDigits` writes its last digits in a field of a given width, and `number` reads
digits from left to right. `padded` is the zero-padded form of labels, where the width counts the
minus sign too. -/

namespace Bookkeeping.Text

/-! ## Blanks -/

/-- The code points of the property `White_Space`, as closed intervals in ascending order. -/
def blankIntervals : List (Nat × Nat) :=
  [(0x0009, 0x000D), (0x0020, 0x0020), (0x0085, 0x0085), (0x00A0, 0x00A0), (0x1680, 0x1680),
   (0x2000, 0x200A), (0x2028, 0x2029), (0x202F, 0x202F), (0x205F, 0x205F), (0x3000, 0x3000)]

/-- Whether a character is blank. -/
def isBlank (c : Char) : Bool :=
  blankIntervals.any fun i => i.1 ≤ c.toNat && c.toNat ≤ i.2

/-- The characters after the leading blanks. -/
def skipBlanks (cs : List Char) : List Char :=
  cs.dropWhile isBlank

/-- A text without its leading and trailing blanks. -/
def trim (s : String) : String :=
  String.ofList (skipBlanks (skipBlanks s.toList).reverse).reverse

/-! ## Digits -/

/-- The digits of a number, most significant first, without leading zeros (`0` for zero). -/
def digits (n : Nat) : List Char :=
  Nat.toDigits 10 n

/-- The last `width` digits of a number, most significant first. -/
def fixedDigits : Nat → Nat → List Char
  | 0, _ => []
  | width + 1, n => fixedDigits width (n / 10) ++ [Nat.digitChar (n % 10)]

/-- The digits of a number, with zeros in front up to a width. -/
def paddedDigits (width n : Nat) : List Char :=
  List.replicate (width - (digits n).length) '0' ++ digits n

/-- A whole number with zeros in front up to a width; a minus sign takes one place of it. -/
def padded (width : Nat) (i : Int) : List Char :=
  if i < 0 then '-' :: paddedDigits (width - 1) i.natAbs else paddedDigits width i.natAbs

/-- The value of a digit character, if it is one of the ten ASCII digits. -/
def digit? (c : Char) : Option Nat :=
  if '0' ≤ c ∧ c ≤ '9' then some (c.toNat - '0'.toNat) else none

/-- The number that a run of digits continues, read from left to right. -/
def numberFrom (n : Nat) : List Char → Option Nat
  | [] => some n
  | c :: rest => (digit? c).bind fun d => numberFrom (10 * n + d) rest

/-- The number written by a non-empty run of digits. -/
def number : List Char → Option Nat
  | [] => none
  | c :: rest => numberFrom 0 (c :: rest)

@[simp] theorem length_fixedDigits (width n : Nat) : (fixedDigits width n).length = width := by
  induction width generalizing n with
  | zero => rfl
  | succ width ih => simp [fixedDigits, ih]

theorem digits_ne_nil (n : Nat) : digits n ≠ [] := by
  intro h
  have := congrArg List.length h
  simp [digits] at this

end Bookkeeping.Text
