/-!
# SyntaxPack.Bytes.Fixed

Numbers in a fixed number of bytes, least significant byte first.
-/

namespace SyntaxPack.Bytes

/-- The low `width` bytes of a number, least significant first. -/
def fixed : Nat → Nat → List UInt8
  | 0, _ => []
  | width + 1, n => (n % 256).toUInt8 :: fixed width (n / 256)

/-- The number that bytes stand for, least significant first. -/
def number : List UInt8 → Nat
  | [] => 0
  | b :: bytes => b.toNat + 256 * number bytes

/-- The four bytes of a 32-bit integer in two's complement. -/
def fixedSigned (i : Int) : List UInt8 := fixed 4 (i % 0x100000000).toNat

/-- The 32-bit integer that a number stands for in two's complement. -/
def asSigned (n : Nat) : Int := if n < 0x80000000 then n else (n : Int) - 0x100000000

@[simp] theorem length_fixed (width n : Nat) : (fixed width n).length = width := by
  induction width generalizing n with
  | zero => rfl
  | succ width ih => simp [fixed, ih]

/-- Reading back what was written keeps the low bytes. -/
theorem number_fixed (width n : Nat) : number (fixed width n) = n % Nat.pow 256 width := by
  rw [Nat.pow_eq]
  induction width generalizing n with
  | zero => simp [fixed, number, Nat.mod_one]
  | succ width ih =>
    have hbyte : ((n % 256).toUInt8).toNat = n % 256 := by
      rw [Nat.toUInt8, UInt8.toNat_ofNat']
      omega
    simp only [fixed, number, ih, hbyte, Nat.pow_succ', Nat.mod_mul]

end SyntaxPack.Bytes
