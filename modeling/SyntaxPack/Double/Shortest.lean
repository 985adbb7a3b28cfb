import SyntaxPack.Double.Basic
/-!
# SyntaxPack.Double.Shortest

The shortest decimal text of a double.

Every double is the nearest one to all reals of an interval around it. Among the
decimals in that interval, `shortest` picks one with the fewest digits, and of
those the one nearest to the double. The search goes through the decimal grids
from one digit on and tests the two neighbours of the double on each, in exact
arithmetic on ratios.
-/

namespace SyntaxPack.Double

/-- A decimal: the digits of `digits`, with the decimal point so that the number
is `digits * 10 ^ exponent`. -/
structure Decimal where
  /-- The digits as one number. -/
  digits : Nat
  /-- The power of ten that `digits` counts. -/
  exponent : Int
  deriving DecidableEq, Repr, Inhabited

/-- The reals around a finite double that round to it, as numerators over one
denominator. -/
structure Rounding where
  /-- The lower end. -/
  low : Nat
  /-- The double itself. -/
  value : Nat
  /-- The upper end. -/
  high : Nat
  /-- The denominator. -/
  den : Nat
  /-- Whether the ends belong to the interval. -/
  closed : Bool
  deriving DecidableEq, Repr, Inhabited

namespace Rounding

/-- The interval of a finite double. Its lower half is shorter where the spacing
of doubles changes, and its ends belong to it if the significand is even. -/
def of (d : Double) : Rounding :=
  let unit := Nat.pow 2 d.scale.toNat
  let m := d.magnitude
  let below := if d.fractionField = 0 && 1 < d.exponentField then 1 else 2
  { low := (4 * m - below) * unit
    value := 4 * m * unit
    high := (4 * m + 2) * unit
    den := 4 * Nat.pow 2 (-d.scale).toNat
    closed := m % 2 = 0 }

/-- A number of grid steps `10 ^ exponent`, as a numerator over the denominator
times the second component. -/
def onGrid (r : Rounding) (steps : Nat) (exponent : Int) : Nat × Nat :=
  (steps * Nat.pow 10 exponent.toNat * r.den, Nat.pow 10 (-exponent).toNat)

/-- Whether a number of grid steps lies in the interval. -/
def contains (r : Rounding) (steps : Nat) (exponent : Int) : Bool :=
  let (num, mul) := r.onGrid steps exponent
  if r.closed then r.low * mul ≤ num && num ≤ r.high * mul
  else r.low * mul < num && num < r.high * mul

/-- The number of whole grid steps below the double. -/
def floor (r : Rounding) (exponent : Int) : Nat :=
  r.value * Nat.pow 10 (-exponent).toNat / (r.den * Nat.pow 10 exponent.toNat)

/-- How far a number of grid steps is from the double, in units that depend on
the grid only. -/
def distance (r : Rounding) (steps : Nat) (exponent : Int) : Nat :=
  let (num, mul) := r.onGrid steps exponent
  (num - r.value * mul) + (r.value * mul - num)

/-- The better one of the double's two neighbours on a grid, if one of them lies
in the interval. A tie goes to the even neighbour. -/
def onGrid? (r : Rounding) (exponent : Int) : Option Nat :=
  let lower := r.floor exponent
  let upper := lower + 1
  match r.contains lower exponent, r.contains upper exponent with
  | true, true =>
    let a := r.distance lower exponent
    let b := r.distance upper exponent
    some (if a < b || (a = b && lower % 2 = 0) then lower else upper)
  | true, false => some lower
  | false, true => some upper
  | false, false => none

/-- The number of decimal digits of a positive number. -/
def digitCount (n : Nat) : Nat := (Nat.toDigits 10 n).length

/-- An exponent `k` for which the double is at least about `10 ^ (k - 1)` and
less than `10 ^ k`. -/
def leadingExponent (r : Rounding) : Int :=
  if r.den ≤ r.value then digitCount (r.value / r.den)
  else 1 - (digitCount (r.den / r.value) : Int)

/-- The first grid with a neighbour in the interval, with at most `more` digits
beyond `digits`. -/
def search (r : Rounding) (k : Int) : Nat → Nat → Decimal
  | 0, digits => ⟨r.floor (k - digits), k - digits⟩
  | more + 1, digits =>
    match r.onGrid? (k - digits) with
    | some steps => ⟨steps, k - digits⟩
    | none => search r k more (digits + 1)

end Rounding

/-- A decimal without zeros at its end, of at most `more` of them. -/
def Decimal.trim : Nat → Decimal → Decimal
  | 0, x => x
  | more + 1, x =>
    if x.digits % 10 = 0 && x.digits ≠ 0 then trim more ⟨x.digits / 10, x.exponent + 1⟩ else x

/-- The shortest decimal that is nearest to a finite positive double. -/
def shortest (d : Double) : Decimal :=
  let r := Rounding.of d
  (r.search r.leadingExponent 20 1).trim 20

/-- Digits with a point after the first `whole` of them. -/
def withPoint (digits : List Char) (whole : Nat) : List Char :=
  digits.take whole ++ '.' :: digits.drop whole

/-- The text of a finite double: its shortest digits, positional for magnitudes
from `10 ^ -5` up to `10 ^ 16`, with at least one digit on either side of the
point, and with a signed exponent for all others. -/
def render (d : Double) : String :=
  let sign := if d.isNegative then "-" else ""
  if d.isZero then sign ++ "0.0"
  else
    let x := d.shortest
    let digits := Nat.toDigits 10 x.digits
    let leading := x.exponent + digits.length - 1
    let text :=
      if -5 ≤ leading && leading < 0 then
        "0.".toList ++ List.replicate (-leading - 1).toNat '0' ++ digits
      else if 0 ≤ leading && leading < 16 then
        let padded := digits ++ List.replicate (leading.toNat + 2 - digits.length) '0'
        withPoint padded (leading.toNat + 1)
      else
        let significand := if digits.length = 1 then digits else withPoint digits 1
        let mark := if leading < 0 then "e-".toList else "e+".toList
        significand ++ mark ++ Nat.toDigits 10 leading.natAbs
    sign ++ String.ofList text

end SyntaxPack.Double
