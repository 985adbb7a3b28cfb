import SyntaxPack.Json.Document
import SyntaxPack.Text
/-!
# SyntaxPack.Json.Number

Numbers in JSON text.

A numeral without fraction and exponent that fits into 64 bits is an integer.
Every other one becomes a double in two steps, each of which rounds: as many
leading digits as fit into 64 bits are taken as one number, and that is
multiplied or divided by a power of ten. Too large a result is refused; too
small a one becomes zero. The numeral `-0` is the negative zero.
-/

namespace SyntaxPack.Json

/-- The parts of a numeral. -/
structure Numeral where
  /-- Whether it starts with a minus sign. -/
  negative : Bool
  /-- The digits before the point. -/
  whole : List Nat
  /-- The digits after the point; none if there is no point. -/
  fraction : List Nat
  /-- The exponent, if there is one. -/
  exponent : Option Int
  deriving DecidableEq, Repr, Inhabited

namespace Numeral

/-! ### Value -/

/-- Appends digits to a number as long as it stays below `2 ^ 64`. The result is
the number and how many digits were left over. -/
def absorb (n : Nat) : List Nat → Nat × Nat
  | [] => (n, 0)
  | digit :: digits =>
    if n * 10 + digit < UInt64.size then absorb (n * 10 + digit) digits
    else (n, digits.length + 1)

/-- The largest power of ten that is a finite double. -/
def maxPower : Nat := 308

/-- Scales a double by a power of ten below the finite ones, in steps. Two steps
turn every number of 64 bits into zero. -/
def scaleDown (d : Double) : Nat → Nat → Double
  | 0, _ => d
  | steps + 1, power =>
    if power ≤ maxPower then d.dividedBy (.ofNat (Nat.pow 10 power))
    else scaleDown (d.dividedBy (.ofNat (Nat.pow 10 maxPower))) steps (power - maxPower)

/-- Scales a double by a power of ten, none if the result is not finite. -/
def scaled (d : Double) (exponent : Int) : Option Double :=
  if d.isZero then some d
  else if exponent < 0 then some (scaleDown d 3 exponent.natAbs)
  else if exponent ≤ maxPower then
    let product := d.times (.ofNat (Nat.pow 10 exponent.toNat))
    if product.isFinite then some product else none
  else none

/-- The double of a numeral, none if it is too large. -/
def toDouble? (x : Numeral) : Option Double :=
  let (whole, dropped) := absorb 0 x.whole
  let (significand, droppedToo) := absorb whole x.fraction
  let taken := x.fraction.length - droppedToo
  let exponent := (dropped : Int) - taken + x.exponent.getD 0
  scaled (.ofRatio x.negative significand 1) exponent

/-- The number of a numeral, none if it is too large. -/
def toJson? (x : Numeral) : Option Json :=
  match x.fraction, x.exponent, absorb 0 x.whole with
  | [], none, (n, 0) =>
    if !x.negative then some (.integer n)
    else if 0 < n ∧ n ≤ 0x8000000000000000 then some (.integer (-n))
    else some (.float (.ofRatio true n 1))
  | _, _, _ => x.toDouble?.map .float

end Numeral

/-! ### Text -/

/-- Splits digits off the front of a text. -/
def splitDigits : List Char → List Nat × List Char
  | [] => ([], [])
  | c :: cs =>
    match Text.decimalDigit? c with
    | some digit =>
      let (digits, rest) := splitDigits cs
      (digit :: digits, rest)
    | none => ([], c :: cs)

/-- The number that digits stand for. -/
def digitsValue (digits : List Nat) : Nat := digits.foldl (fun n digit => n * 10 + digit) 0

/-- Reads the digits after a point, at least one. -/
def readFraction : List Char → Option (List Nat × List Char)
  | '.' :: cs =>
    match splitDigits cs with
    | ([], _) => none
    | (digits, rest) => some (digits, rest)
  | cs => some ([], cs)

/-- Reads the sign and the digits of an exponent, at least one. -/
def readExponentValue (cs : List Char) : Option (Int × List Char) :=
  let (negative, cs) := match cs with
    | '+' :: cs => (false, cs)
    | '-' :: cs => (true, cs)
    | cs => (false, cs)
  match splitDigits cs with
  | ([], _) => none
  | (digits, rest) =>
    let n := digitsValue digits
    some (if negative then -(n : Int) else n, rest)

/-- Reads an exponent, if there is one. -/
def readExponent : List Char → Option (Option Int × List Char)
  | 'e' :: cs | 'E' :: cs => (readExponentValue cs).map fun (n, rest) => (some n, rest)
  | cs => some (none, cs)

/-- Reads the digits before the point. Only a zero alone starts with a zero. -/
def readWhole (cs : List Char) : Option (List Nat × List Char) :=
  match splitDigits cs with
  | ([], _) | (0 :: _ :: _, _) => none
  | (digits, rest) => some (digits, rest)

/-- Reads a numeral. -/
def readNumeral (cs : List Char) : Option (Numeral × List Char) := do
  let (negative, cs) := match cs with
    | '-' :: cs => (true, cs)
    | cs => (false, cs)
  let (whole, cs) ← readWhole cs
  let (fraction, cs) ← readFraction cs
  let (exponent, cs) ← readExponent cs
  return (⟨negative, whole, fraction, exponent⟩, cs)

/-- Reads a number. -/
def readNumber (cs : List Char) : Option (Json × List Char) := do
  let (x, rest) ← readNumeral cs
  return (← x.toJson?, rest)

end SyntaxPack.Json
