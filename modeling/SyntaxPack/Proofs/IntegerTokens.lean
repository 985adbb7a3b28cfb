import Mathlib.Algebra.Order.Field.Power
import Mathlib.Data.Rat.Floor
import SyntaxPack.Module.Write
import SyntaxPack.Proofs.Decode.Slots
import SyntaxPack.Proofs.Written
/-!
# SyntaxPack.Proofs.IntegerTokens

Numbers that are written as integers.

A number is written as an integer token if its value is an integer of 32 bits, unless it is the
negative zero, which has the value but not the bits of the other zero. That is all that an integer
token can stand for (`Double.classified`): the token of a number is read back as the number, bit
for bit, and no token is read as a number that is refused.

The value of a number is a rational here, straight from its sign, significand and exponent, and the
reasons to refuse a number are stated in its terms (`Double.integerPayload_eq_none_iff`).
-/

namespace SyntaxPack

namespace Double

variable {d : Double} {i : Int}

/-! ### The value of a number -/

/-- The value of a finite number. -/
def value (d : Double) : ℚ :=
  if d.isNegative then -(d.magnitude * 2 ^ d.scale) else d.magnitude * 2 ^ d.scale

/-- The absolute value of a finite number is its ratio. -/
theorem magnitude_mul_scale (d : Double) :
    (d.magnitude : ℚ) * 2 ^ d.scale * d.ratio.2 = d.ratio.1 := by
  have hsplit : d.scale + (-d.scale).toNat = d.scale.toNat := by omega
  have hscale : (2 : ℚ) ^ d.scale * 2 ^ (-d.scale).toNat = 2 ^ d.scale.toNat := by
    rw [← zpow_natCast, ← zpow_natCast, ← zpow_add₀ (by norm_num), hsplit]
  simp only [ratio, Nat.pow_eq, Nat.cast_mul, Nat.cast_pow, Nat.cast_ofNat]
  rw [mul_assoc, hscale]

/-- A number is equal to an integer if it is finite and has that value. -/
theorem toInt?_eq_some_iff_value : d.toInt? = some i ↔ d.isFinite = true ∧ d.value = i := by
  have hden : (d.ratio.2 : ℚ) ≠ 0 := Nat.cast_ne_zero.mpr (Nat.ne_of_gt (Nat.two_pow_pos _))
  have hnonneg : (0 : ℚ) ≤ d.magnitude * 2 ^ d.scale := by positivity
  have hratio : ∀ n : Nat, d.ratio.1 = n * d.ratio.2 ↔ (d.magnitude : ℚ) * 2 ^ d.scale = n := by
    intro n
    rw [← mul_left_inj' hden, d.magnitude_mul_scale]
    exact_mod_cast Iff.rfl
  rw [toInt?_eq_some_iff]
  simp only [hratio, value]
  refine and_congr_right fun _ => ⟨?_, fun h => ⟨i.natAbs, ?_, ?_⟩⟩
  · rintro ⟨n, hn, rfl⟩
    rw [hn]
    split <;> simp
  · rw [Nat.cast_natAbs, Int.cast_abs, ← h]
    split
    · rw [abs_neg, abs_of_nonneg hnonneg]
    · rw [abs_of_nonneg hnonneg]
  · cases hsign : d.isNegative
    · have hi : (0 : ℚ) ≤ i := by simpa [← h, hsign] using hnonneg
      simpa using (abs_of_nonneg (Int.cast_nonneg_iff.mp hi)).symm
    · have hi : (i : ℚ) ≤ 0 := by simpa [← h, hsign] using hnonneg
      simp [abs_of_nonpos (Int.cast_nonpos.mp hi)]

/-! ### Payloads -/

/-- A number has an integer as its payload if that is its value, in range, and not that of the
negative zero. -/
theorem integerPayload_eq_some_iff_value : d.integerPayload = some i ↔
    d.isFinite = true ∧ d.value = i ∧ isPayload i = true ∧ d.isNegativeZero = false := by
  rw [integerPayload_eq_some_iff, toInt?_eq_some_iff_value]
  tauto

/-- A number has no payload if it is infinite or no number, if it has a fractional part, if it is
out of range or if it is the negative zero. -/
theorem integerPayload_eq_none_iff : d.integerPayload = none ↔
    d.isFinite = false ∨ Int.fract d.value ≠ 0 ∨ d.value < -2 ^ 31 ∨ 2 ^ 31 - 1 < d.value ∨
      d.isNegativeZero = true := by
  have hrange : ∀ i : Int, isPayload i = true ↔ -2 ^ 31 ≤ (i : ℚ) ∧ (i : ℚ) ≤ 2 ^ 31 - 1 := by
    intro i
    rw [isPayload_iff, ← Int.le_sub_one_iff]
    exact_mod_cast Iff.rfl
  rw [← not_iff_not, ← ne_eq, Option.ne_none_iff_exists']
  simp only [integerPayload_eq_some_iff_value, not_or, Bool.not_eq_false, not_not, not_lt,
    Bool.not_eq_true, hrange]
  constructor
  · rintro ⟨i, hfinite, hvalue, hpayload, hzero⟩
    rw [hvalue]
    exact ⟨hfinite, Int.fract_intCast i, hpayload.1, hpayload.2, hzero⟩
  · rintro ⟨hfinite, hfract, hlow, hhigh, hzero⟩
    have hvalue : d.value = ⌊d.value⌋ := by
      rw [← Int.floor_add_fract d.value, hfract, add_zero, Int.floor_intCast]
    refine ⟨⌊d.value⌋, hfinite, hvalue, ?_, hzero⟩
    rw [← hvalue]
    exact ⟨hlow, hhigh⟩

/-- A number has an integer as its payload if and only if it is the double of that integer. -/
theorem integerPayload_eq_some_iff_ofInt (h : isPayload i = true) :
    d.integerPayload = some i ↔ d = ofInt i :=
  ⟨fun hpayload => (ofInt_of_integerPayload hpayload).symm, fun hd => hd ▸ integerPayload_ofInt h⟩

theorem isPayload_toInt (i : Int32) : isPayload i.toInt = true :=
  isPayload_iff.mpr ⟨i.le_toInt, i.toInt_lt⟩

theorem exists_toInt_eq (h : isPayload i = true) : ∃ word : Int32, word.toInt = i := by
  obtain ⟨hlow, hhigh⟩ := isPayload_iff.mp h
  exact ⟨.ofInt i, Int32.toInt_ofInt_of_le hlow hhigh⟩

end Double

/-! ### Tokens -/

namespace Module

variable {d : Double} {i : Int} {nullable : Bool} {s t : DecodeState}
  {readFields : ShapeId → Decode Object}

/-- An integer token is read as the double of its integer. -/
theorem DecodeInput.underTag_integer_eq_ok {input : DecodeInput} {value : Value} :
    input.underTag readFields (.builtin .integer) nullable s = .ok value t ↔
      ∃ i, input.fromTag (.builtin .integer) input.wire.indexEncoding.readInteger s = .ok i t ∧
        value = .number (.ofInt i) := by
  constructor
  · intro h
    obtain ⟨i, u, hread, h₁⟩ := run_bind_eq_ok.mp h
    obtain ⟨rfl, rfl⟩ := run_pure_eq_ok.mp h₁
    exact ⟨i, hread, rfl⟩
  · rintro ⟨i, hread, rfl⟩
    exact run_bind_eq_ok.mpr ⟨i, t, hread, rfl⟩

/-- What is read off an integer token has a payload. -/
theorem DecodeInput.integerPayload_of_underTag {input : DecodeInput}
    (h : input.underTag readFields (.builtin .integer) nullable s = .ok (.number d) t) :
    ∃ i, d.integerPayload = some i := by
  obtain ⟨i, hread, hd⟩ := underTag_integer_eq_ok.mp h
  obtain ⟨reader, rest, -, hrun, -⟩ := Decode.fromStream_eq_ok.mp hread
  obtain rfl := Value.number.inj hd
  exact ⟨i, Double.integerPayload_ofInt (IndexEncoding.isPayload_of_readInteger hrun)⟩

/-- The token of a number is read as the number, from the section or from the stream of integers. -/
theorem DecodeInput.underTag_integer_of_payload {input : DecodeInput} {rest : List UInt8}
    {offset : Nat} (h : d.integerPayload = some i)
    (hroute : s.source.route Builtin.integer.seedIndex =
      .ok ⟨input.wire.indexEncoding.writeInteger i ++ rest, offset⟩) :
    input.underTag readFields (.builtin .integer) nullable s = .ok (.number d) { s with
      source := s.source.advance Builtin.integer.seedIndex
        ⟨rest, offset + (input.wire.indexEncoding.writeInteger i).length⟩ } := by
  have hpayload := (Double.integerPayload_eq_some_iff.mp h).2.2
  have hread := IndexEncoding.takes_readInteger (e := input.wire.indexEncoding) hpayload rest offset
  refine underTag_integer_eq_ok.mpr ⟨i, ?_, by rw [Double.ofInt_of_integerPayload h]⟩
  exact Decode.fromStream_eq_ok.mpr ⟨_, _, hroute, hread, rfl⟩

end Module

namespace Double

open SyntaxPack.Module (WriteInput DecodeInput DecodeState Decode)

/-- What a number is where integers are wanted. -/
structure Classified (d : Double) : Prop where
  /-- It has an integer as its payload if and only if its bits are those of the double of it. -/
  payload_iff : ∀ i : Int32, d.integerPayload = some i.toInt ↔ d.bits = (ofInt i.toInt).bits
  /-- Payloads have 32 bits. -/
  word : ∀ i, d.integerPayload = some i → ∃ word : Int32, word.toInt = i
  /-- The double of an integer is not rounded, and that of zero is not negative. -/
  exact_iff : ∀ i : Int32, d.bits = (ofInt i.toInt).bits ↔
    d.isFinite = true ∧ d.value = i.toInt ∧ d.isNegativeZero = false
  /-- The numbers without a payload: infinite or no numbers, fractions, out of range, or the negative
  zero. -/
  refused_iff : d.integerPayload = none ↔
    d.isFinite = false ∨ Int.fract d.value ≠ 0 ∨ d.value < -2 ^ 31 ∨ 2 ^ 31 - 1 < d.value ∨
      d.isNegativeZero = true
  /-- A number with a payload is written as one integer token. -/
  written : ∀ i, d.integerPayload = some i → ∀ (input : WriteInput) writeFields nullable site,
    input.underTag writeFields (.builtin .integer) nullable site (.number d) =
      .ok [input.token (.builtin .integer) (input.wire.indexEncoding.writeInteger i)]
  /-- A number without one cannot be written as an integer. -/
  refused : d.integerPayload = none → ∀ (input : WriteInput) writeFields nullable site,
    input.underTag writeFields (.builtin .integer) nullable site (.number d) =
      .error (WriteInput.mismatch site "integer" "double")
  /-- The token of a number is read as the number, wherever it stands and whatever follows. -/
  restored : ∀ i, d.integerPayload = some i →
    ∀ (input : DecodeInput) readFields nullable (s : DecodeState) rest offset,
      s.source.route Builtin.integer.seedIndex =
        .ok ⟨input.wire.indexEncoding.writeInteger i ++ rest, offset⟩ →
      input.underTag readFields (.builtin .integer) nullable s = .ok (.number d) { s with
        source := s.source.advance Builtin.integer.seedIndex
          ⟨rest, offset + (input.wire.indexEncoding.writeInteger i).length⟩ }
  /-- No integer token at all is read as a number that is refused. -/
  irreproducible : d.integerPayload = none →
    ∀ (input : DecodeInput) readFields nullable (s t : DecodeState),
      input.underTag readFields (.builtin .integer) nullable s ≠ .ok (.number d) t

/-- Numbers are written as integers exactly where integer tokens stand for them. -/
theorem classified (d : Double) : Classified d where
  payload_iff i := by
    rw [integerPayload_eq_some_iff_ofInt (isPayload_toInt i), Double.mk.injEq]
  word i h := exists_toInt_eq (integerPayload_eq_some_iff.mp h).2.2
  exact_iff i := by
    have hpayload := isPayload_toInt i
    rw [← Double.mk.injEq, ← integerPayload_eq_some_iff_ofInt hpayload,
      integerPayload_eq_some_iff_value]
    simp [hpayload]
  refused_iff := integerPayload_eq_none_iff
  written i h input writeFields nullable site := by
    simp only [WriteInput.underTag, h]
  refused h input writeFields nullable site := by
    simp only [WriteInput.underTag, h]
  restored i h input readFields nullable s rest offset hroute :=
    DecodeInput.underTag_integer_of_payload h hroute
  irreproducible h input readFields nullable s t hread := by
    obtain ⟨i, hi⟩ := DecodeInput.integerPayload_of_underTag hread
    rw [h] at hi
    cases hi

/-- The smallest integer of 32 bits is one, the negative zero is none. -/
example : (⟨0xc1e0000000000000⟩ : Double).integerPayload = some (-0x80000000) ∧
    (⟨0x8000000000000000⟩ : Double).integerPayload = none := by decide +kernel

end Double

end SyntaxPack
