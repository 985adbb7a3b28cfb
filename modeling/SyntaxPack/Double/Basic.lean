/-!
# SyntaxPack.Double.Basic

Double-precision numbers, held as their 64 bits.

Trees keep every bit of a number, the payload of a NaN and the sign of a zero
included, so a number *is* its bit pattern here. What has to be known about its
value is computed from the three parts of the pattern in exact integer
arithmetic:

* `magnitude` and `scale` give a finite number as `magnitude * 2 ^ scale`;
* `toInt?` is the integer a number is equal to, if it is one;
* `ofInt` is the double nearest to an integer;
* `integerPayload` is the 32-bit integer whose double has exactly these bits.
-/

namespace SyntaxPack

/-- A double-precision number: one sign bit, eleven exponent bits and 52
fraction bits, from the most significant on. -/
structure Double where
  /-- The bit pattern. -/
  bits : UInt64
  deriving DecidableEq, Repr, Inhabited

namespace Double

/-! ### The parts of a pattern -/

/-- The place value of the sign bit, `2 ^ 63`. -/
abbrev signBit : Nat := 0x8000000000000000

/-- The place value of the hidden bit, `2 ^ 52`: one more than the fraction
field can hold. -/
abbrev hiddenBit : Nat := 0x10000000000000

/-- The sign bit. -/
def isNegative (d : Double) : Bool := signBit ≤ d.bits.toNat

/-- The pattern without its sign bit. -/
def unsignedBits (d : Double) : Nat := d.bits.toNat % signBit

/-- The exponent field, `0` to `2047`. -/
def exponentField (d : Double) : Nat := d.unsignedBits / hiddenBit

/-- The fraction field. -/
def fractionField (d : Double) : Nat := d.unsignedBits % hiddenBit

/-- Puts a sign in front of a pattern below `2 ^ 63`. -/
def ofParts (negative : Bool) (unsignedBits : Nat) : Double :=
  ⟨((if negative then signBit else 0) + unsignedBits).toUInt64⟩

/-- Neither infinite nor a NaN. -/
def isFinite (d : Double) : Bool := d.exponentField ≠ 2047

/-- One of the NaNs. -/
def isNaN (d : Double) : Bool := 2047 * hiddenBit < d.unsignedBits

/-- Either zero. -/
def isZero (d : Double) : Bool := d.unsignedBits = 0

/-- The zero with its sign bit set. -/
def isNegativeZero (d : Double) : Bool := d.isNegative && d.isZero

/-- The integer significand of a finite number, hidden bit included. -/
def magnitude (d : Double) : Nat :=
  if d.exponentField = 0 then d.fractionField else hiddenBit + d.fractionField

/-- The power of two that `magnitude` counts. -/
def scale (d : Double) : Int :=
  if d.exponentField = 0 then -1074 else (d.exponentField : Int) - 1075

/-- Numerator and denominator of a finite number's absolute value. -/
def ratio (d : Double) : Nat × Nat :=
  (d.magnitude * Nat.pow 2 d.scale.toNat, Nat.pow 2 (-d.scale).toNat)

/-! ### Comparison -/

/-- Numeric equality: the two zeros are equal and a NaN equals nothing. -/
def numericEq (a b : Double) : Bool :=
  !a.isNaN && !b.isNaN && (a.bits = b.bits || (a.isZero && b.isZero))

/-! ### Rounding to the nearest double -/

/-- `num / den` rounded to the nearest integer, a half to the even neighbour. -/
def roundRatio (num den : Nat) : Nat :=
  let quotient := num / den
  let twice := 2 * (num % den)
  if twice < den then quotient
  else if den < twice then quotient + 1
  else quotient + quotient % 2

/-- The `e` with `2 ^ e ≤ num / den < 2 ^ (e + 1)`, for positive arguments. -/
def binaryExponent (num den : Nat) : Int :=
  let e := (num.log2 : Int) - den.log2
  if num * Nat.pow 2 (-e).toNat < den * Nat.pow 2 e.toNat then e - 1 else e

/-- The pattern of positive infinity. -/
def infinityBits : Nat := 2047 * hiddenBit

/-- The unsigned pattern nearest to `num / den`. The significand has 53 bits
where the exponent field leaves room for that, and a significand that rounds up
to a power of two carries into the exponent field by itself. -/
def nearestBits (num den : Nat) : Nat :=
  if num = 0 then 0
  else
    let q := max (binaryExponent num den - 52) (-1074)
    let significand := roundRatio (num * Nat.pow 2 (-q).toNat) (den * Nat.pow 2 q.toNat)
    min ((q + 1074).toNat * hiddenBit + significand) infinityBits

/-- The double nearest to the ratio `num / den` under a sign. -/
def ofRatio (negative : Bool) (num den : Nat) : Double :=
  ofParts negative (nearestBits num den)

/-- The double nearest to a natural number. -/
def ofNat (n : Nat) : Double := ofRatio false n 1

/-- The double nearest to an integer. -/
def ofInt (i : Int) : Double := ofRatio (i < 0) i.natAbs 1

/-- The product of two finite doubles, rounded; its sign is that of `a`. -/
def times (a b : Double) : Double :=
  ofRatio a.isNegative (a.ratio.1 * b.ratio.1) (a.ratio.2 * b.ratio.2)

/-- The quotient of two finite doubles, rounded; its sign is that of `a`. -/
def dividedBy (a b : Double) : Double :=
  ofRatio a.isNegative (a.ratio.1 * b.ratio.2) (a.ratio.2 * b.ratio.1)

/-! ### Integers -/

/-- The integer that a number is equal to. Both zeros are `0`. -/
def toInt? (d : Double) : Option Int :=
  if d.isFinite && d.ratio.1 % d.ratio.2 = 0 then
    let n := d.ratio.1 / d.ratio.2
    some (if d.isNegative then -(n : Int) else n)
  else none

/-- The integer that a number is equal to, unless it is the negative zero, which
no integer stands for. -/
def exactInt? (d : Double) : Option Int :=
  if d.isNegativeZero then none else d.toInt?

/-- The range of the integers that an integer token holds. -/
def isPayload (i : Int) : Bool := -0x80000000 ≤ i && i < 0x80000000

/-- The 32-bit integer a number is written as where integers are wanted. The
negative zero has none: as an integer it would lose its sign. -/
def integerPayload (d : Double) : Option Int :=
  d.exactInt?.filter isPayload

end Double

end SyntaxPack
