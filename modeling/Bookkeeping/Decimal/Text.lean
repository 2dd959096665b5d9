import Bookkeeping.Decimal.Arithmetic
import Bookkeeping.Text

set_option autoImplicit false

/-! # Written amounts

An amount is written with a minus sign if it has one, its whole part, and after a point exactly
as many decimals as its scale says. `fundText` is the shorter form of presented funds.

Reading is wider. A sign may stand in front, digits may be grouped with `_` after the first one,
and either side of the point may be empty, though not both. Decimals that do not fit are cut:
once 28 decimals are read, or the next one would overflow the magnitude, the next digit decides
whether the last one kept goes up, and only digits and grouping marks may follow. A zero read so
has no sign.

A text that cannot be read so may still be an amount with an exponent, which moves the point.
There a negative amount keeps its sign even if all its digits are rounded away. -/

namespace Bookkeeping.Decimal

open Bookkeeping.Text

/-! ## Writing -/

/-- The characters of an amount, all its decimals shown. -/
def chars (a : Decimal) : List Char :=
  let n := a.magnitude
  let sign := if a.negative then ['-'] else []
  let fraction := if a.scale = 0 then [] else '.' :: fixedDigits a.scale n
  sign ++ digits (n / tenPow a.scale) ++ fraction

/-- The written form of an amount, all its decimals shown. -/
def toText (a : Decimal) : String :=
  String.ofList a.chars

/-- How many decimals a presented fund has at most. -/
abbrev fundPlaces : Nat := 8

/-- The written form of a presented fund: rounded to eight decimals, without zeros at the end. -/
def fundText (a : Decimal) : String :=
  (a.roundTo fundPlaces).normalize.toText

/-! ## Reading digits -/

/-- The number read so far: its digits as one magnitude, and how many of them are decimals. -/
structure Numeral where
  magnitude : Nat
  scale : Nat
deriving DecidableEq, Repr

/-- Whether a character groups digits. -/
def isGroupingMark (c : Char) : Bool :=
  c = '_'

/-- The bound on the numbers that can be continued in a 64-bit word: a tenth of the largest one,
    less 255. -/
abbrev quickBound : Nat := 1844674407370954906

/-- Whether the number is read the quick way: all its digits but the last make a number that can
    be continued in a 64-bit word. -/
def Numeral.isQuick (r : Numeral) : Bool :=
  r.magnitude / 10 < quickBound

/-- The number rounded by the first digit that is cut: from five on it goes up. A magnitude that
    overflows on the way up gives up one decimal. -/
def Numeral.roundBy (r : Numeral) (next : Nat) : Option Numeral :=
  if next < 5 then some r
  else if r.magnitude + 1 < magnitudeBound then some { r with magnitude := r.magnitude + 1 }
  else if r.scale = 0 then none
  else some ⟨(r.magnitude + 5) / 10, r.scale - 1⟩

/-- The reading when `rest` no longer fits. It must be digits and grouping marks throughout, and
    its first digit decides the rounding; the quick way does not look past a grouping mark, which
    then counts as zero. -/
def Numeral.cutAt (r : Numeral) (rest : List Char) : Option Numeral :=
  if rest.all fun c => isGroupingMark c || (digit? c).isSome then
    let decisive := if r.isQuick then rest else rest.dropWhile isGroupingMark
    r.roundBy ((decisive.head?.bind digit?).getD 0)
  else none

/-- Reads digits onto `r`. The flags tell whether the point and whether a digit has been read. -/
def Numeral.scan (r : Numeral) (point seen : Bool) : List Char → Option Numeral
  | [] => if seen then some r else none
  | c :: rest =>
      if point ∧ r.scale = maxScale then r.cutAt (c :: rest)
      else
        match digit? c with
        | some d =>
            if r.magnitude * 10 + d < magnitudeBound then
              Numeral.scan ⟨r.magnitude * 10 + d, if point then r.scale + 1 else 0⟩ point true rest
            else if point then r.cutAt (c :: rest)
            else none
        | none =>
            if c = '.' then (if point then none else Numeral.scan r true seen rest)
            else if isGroupingMark c ∧ seen then Numeral.scan r point seen rest
            else none

/-- Splits off one sign: whether the number is negative, and what follows. -/
def splitSign : List Char → Bool × List Char
  | '-' :: rest => (true, rest)
  | '+' :: rest => (false, rest)
  | cs => (false, cs)

/-- Reads a number without exponent. -/
def ofPlain? (cs : List Char) : Option Decimal :=
  let (negative, body) := splitSign cs
  (Numeral.scan ⟨0, 0⟩ false false body).bind fun r =>
    (ofSigned? negative r.magnitude r.scale).map dropZeroSign

/-! ## Exponents -/

/-- The magnitude of an exponent: digits, with a plus sign allowed in front. -/
def exponentMagnitude? (cs : List Char) : Option Nat :=
  number (match cs with
    | '+' :: rest => rest
    | _ => cs)

/-- The amount divided by a power of ten: the point moves to the left. Of the decimals that this
    gives, the last ones are dropped down to `maxScale`, a half rounding up. -/
def movePointLeft (a : Decimal) (exponent : Nat) : Option Decimal :=
  let s := a.scale + exponent
  ofSigned? a.negative (nearestUp a.magnitude (tenPow (s - maxScale))) (min s maxScale)

/-- The amount multiplied by a power of ten: the point moves to the right, and beyond the last
    decimal zeros are appended. -/
def movePointRight (a : Decimal) (exponent : Nat) : Option Decimal :=
  ofSigned? a.negative (a.magnitude * tenPow (exponent - a.scale)) (a.scale - exponent)

/-- The amount times a power of ten with an exponent of at most `maxScale`, either way. -/
def timesPowerOfTen (a : Decimal) (negative : Bool) (exponent : Nat) : Option Decimal :=
  if maxScale < exponent then none
  else if negative then a.movePointLeft exponent
  else a.movePointRight exponent

/-- Whether a character starts an exponent. -/
def isExponentMark (c : Char) : Bool :=
  c = 'e' || c = 'E'

/-- Reads a number with an exponent. -/
def ofScientific? (cs : List Char) : Option Decimal :=
  match cs.dropWhile (fun c => !isExponentMark c) with
  | [] => none
  | _ :: exponent =>
      (ofPlain? (cs.takeWhile fun c => !isExponentMark c)).bind fun a =>
        let (negative, magnitude) := match exponent with
          | '-' :: rest => (true, rest)
          | _ => (false, exponent)
        (exponentMagnitude? magnitude).bind (timesPowerOfTen a negative)

/-- Reads an amount, with or without exponent. -/
def ofText? (s : String) : Option Decimal :=
  match ofPlain? s.toList with
  | some a => some a
  | none => ofScientific? s.toList

end Bookkeeping.Decimal
