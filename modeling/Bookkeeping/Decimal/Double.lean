import Bookkeeping.Decimal.Text

set_option autoImplicit false

/-! # Amounts and double-precision numbers

`Double` is a 64-bit floating-point number given by its bits. `Double.shortest?` finds the
shortest decimal number that reads back as the same double, the one nearest to it among those
of equal length, and `Decimal.ofDouble?` takes that number as an amount. `Decimal.toDouble` goes
the other way: whole amounts are rounded once, all others are put together from their whole
part and their fraction and rounded to the decimals they have.

The search works in exact whole numbers: the bits name a value `m * 2 ^ q` and the interval of
reals that round to it, with its ends included exactly when `m` is even. -/

namespace Bookkeeping

/-- A double-precision number, given by its bits. -/
structure Double where
  bits : UInt64
deriving DecidableEq, Repr

namespace Double

/-! ## The value behind the bits -/

/-- The weight of the sign bit: two to the power 63. -/
abbrev signUnit : Nat := 9223372036854775808

/-- The weight of the lowest exponent bit, and of the leading bit of a fraction: two to the
    power 52. -/
abbrev fractionUnit : Nat := 4503599627370496

/-- Whether the sign bit is set. -/
def isNegative (x : Double) : Bool :=
  x.bits.toNat / signUnit % 2 == 1

/-- The eleven bits of the exponent. -/
def exponentBits (x : Double) : Nat :=
  x.bits.toNat / fractionUnit % 2048

/-- The fifty-two bits of the fraction. -/
def fractionBits (x : Double) : Nat :=
  x.bits.toNat % fractionUnit

/-- Whether the double is a number, neither infinite nor undefined. -/
def isFinite (x : Double) : Bool :=
  x.exponentBits < 2047

/-- The magnitude of a finite double as `(m, q)`, standing for `m * 2 ^ q`. -/
def magnitude (x : Double) : Nat × Int :=
  if x.exponentBits = 0 then (x.fractionBits, -1074)
  else (fractionUnit + x.fractionBits, (x.exponentBits : Int) - 1075)

/-- The double of a machine float. -/
def ofFloat (x : Float) : Double := ⟨x.toBits⟩

/-- Sixteen hexadecimal digits of the bits. -/
def hex (x : Double) : String :=
  let digits := Nat.toDigits 16 x.bits.toNat
  String.ofList (List.replicate (16 - digits.length) '0' ++ digits)

/-! ## Shortest decimal number -/

/-- The reals that round to one double, as fractions over one denominator: the value and the
    two ends of the interval around it. -/
structure Neighbourhood where
  low : Nat
  value : Nat
  high : Nat
  denominator : Nat
  closed : Bool

/-- The neighbourhood of `m * 2 ^ q`. Below a power of two the doubles lie twice as dense. -/
def neighbourhood (m : Nat) (q : Int) : Neighbourhood :=
  let below := if m = fractionUnit ∧ -1074 < q then 1 else 2
  let scaleUp := twoPow q.toNat
  { low := (4 * m - below) * scaleUp
    value := 4 * m * scaleUp
    high := (4 * m + 2) * scaleUp
    denominator := 4 * twoPow (-q).toNat
    closed := m % 2 == 0 }

/-- Whether `n * 10 ^ e` lies in the neighbourhood. -/
def Neighbourhood.contains (i : Neighbourhood) (n : Nat) (e : Int) : Bool :=
  let x := n * tenPow e.toNat * i.denominator
  let unit := tenPow (-e).toNat
  if i.closed then i.low * unit ≤ x && x ≤ i.high * unit
  else i.low * unit < x && x < i.high * unit

/-- The neighbour of the value on the grid of multiples of `10 ^ e` that lies in the
    neighbourhood; of two the nearer one, of two equally near ones the even one. -/
def Neighbourhood.gridPoint? (i : Neighbourhood) (e : Int) : Option Nat :=
  let x := i.value * tenPow (-e).toNat
  let unit := i.denominator * tenPow e.toNat
  let floor := x / unit
  match i.contains floor e, i.contains (floor + 1) e with
  | true, true => some (Decimal.nearest x unit)
  | true, false => some floor
  | false, true => some (floor + 1)
  | false, false => none

/-- The first of the grids `e`, `e - 1`, … that has a point in the neighbourhood, with it. -/
def Neighbourhood.search (i : Neighbourhood) (e : Int) : Nat → Option (Nat × Int)
  | 0 => none
  | fuel + 1 =>
      match i.gridPoint? e with
      | some n => some (n, e)
      | none => i.search (e - 1) fuel

/-- The exponent of the coarsest grid worth a look: the largest power of ten is `10 ^ 308`. -/
abbrev coarsest : Int := 309

/-- The number of grids down to the finest that is needed, that of `10 ^ (-324)` with seventeen
    digits to spare. -/
abbrev gridCount : Nat := 660

/-- The shortest decimal number `n * 10 ^ e` that reads back as this positive finite double. -/
def shortest? (x : Double) : Option (Nat × Int) :=
  let (m, q) := x.magnitude
  if m = 0 then some (0, 0) else (neighbourhood m q).search coarsest gridCount

/-- The decimal number of a double in positional notation, without a point where it is whole. -/
def positional? (x : Double) : Option (List Char) :=
  if x.isFinite then
    x.shortest?.map fun (n, e) =>
      let sign := if x.isNegative then ['-'] else []
      let body :=
        if 0 ≤ e then Text.digits (n * tenPow e.toNat)
        else
          let places := (-e).toNat
          Text.digits (n / tenPow places) ++ '.' :: Text.fixedDigits places n
      sign ++ body
  else none

end Double

namespace Decimal

/-- The amount that the shortest decimal number of a double names. -/
def ofDouble? (x : Double) : Option Decimal :=
  x.positional?.bind ofPlain?

/-- Powers of ten as floats, by repeated squaring. -/
def floatPower (r a : Float) (n : Nat) : Float :=
  let r := if n % 2 = 1 then r * a else r
  if n / 2 = 0 then r else floatPower r (a * a) (n / 2)
termination_by n
decreasing_by
  have : n / 2 < n := Nat.div_lt_self (by omega) (by decide)
  exact this

/-- The magnitude of an amount as a float. -/
def magnitudeFloat (a : Decimal) : Float :=
  let m := a.magnitude
  if a.scale = 0 then Float.ofNat m
  else
    let unit := tenPow a.scale
    let whole := Float.ofNat (m / unit)
    let fraction := Float.ofNat (m % unit) / Float.ofNat unit
    if fraction == 0 then whole
    else
      let places := floatPower 1 10 a.scale
      ((whole + fraction) * places).round / places

/-- The double of an amount, its sign applied last. -/
def toDouble (a : Decimal) : Double :=
  Double.ofFloat (if a.negative then -a.magnitudeFloat else a.magnitudeFloat)

end Decimal

end Bookkeeping
