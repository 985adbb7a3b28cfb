import SyntaxPack.Utf8
import SyntaxPack.Proofs.Varint
/-!
# SyntaxPack.Proofs.Utf8

Text is read back as it was written.

A character is written in one to four bytes by the size of its code point. Each of the
four cases is read back by itself; the checks against overlong forms and surrogates pass
because the size was chosen by the code point and a character is no surrogate.
-/

namespace SyntaxPack.Utf8

theorem isContinuation_of_lt {n : Nat} (h : n < 0x40) :
    isContinuation (0x80 + n).toUInt8 = true := by
  simp only [isContinuation, toNat_toUInt8 (show 0x80 + n < 256 by omega), Bool.and_eq_true,
    decide_eq_true_eq]
  omega

theorem payload_of_lt {n : Nat} (h : n < 0x40) : payload (0x80 + n).toUInt8 = n := by
  have hbyte : (0x80 + n).toUInt8.toNat = 0x80 + n := toNat_toUInt8 (by omega)
  unfold payload
  rw [hbyte]
  exact Nat.add_sub_cancel_left 0x80 n

/-- The characters are the code points up to U+10FFFF that are no surrogates. -/
theorem toNat_char_bounds (c : Char) :
    c.toNat < 0xD800 ∨ (0xDFFF < c.toNat ∧ c.toNat < 0x110000) := by
  have hvalid := c.valid
  simp only [UInt32.isValidChar, Nat.isValidChar] at hvalid
  rcases hvalid with hlow | hhigh
  · exact Or.inl hlow
  · exact Or.inr hhigh

/-- Bytes that lead several ones. -/
theorem lead_admitted {n : Nat} (hlow : 0xC2 ≤ n) (hhigh : n < 0xF5) :
    ¬ (decide (n < 0xC2) || decide (0xF5 ≤ n)) = true := by
  simp only [Bool.or_eq_true, decide_eq_true_eq]
  omega

section Characters

variable {c : Char} (index : Nat) (rest : List UInt8)

theorem decodeFrom_one (h : c.toNat < 0x80) :
    decodeFrom index (c.toNat.toUInt8 :: rest) = (decodeFrom (index + 1) rest).map (c :: ·) := by
  have hbyte : c.toNat.toUInt8.toNat = c.toNat := toNat_toUInt8 (by omega)
  conv => lhs; unfold decodeFrom
  simp only [hbyte, if_pos h, Char.ofNat_toNat]

theorem decodeFrom_two (hlow : ¬ c.toNat < 0x80) (hhigh : c.toNat < 0x800) :
    decodeFrom index ((0xC0 + c.toNat / 0x40).toUInt8 :: (0x80 + c.toNat % 0x40).toUInt8 :: rest) =
      (decodeFrom (index + 2) rest).map (c :: ·) := by
  have hfirst : (0xC0 + c.toNat / 0x40).toUInt8.toNat = 0xC0 + c.toNat / 0x40 :=
    toNat_toUInt8 (by omega)
  have hlast : c.toNat % 0x40 < 0x40 := Nat.mod_lt _ (by decide)
  have hsecond : admitsSecond (0xC0 + c.toNat / 0x40).toUInt8 (0x80 + c.toNat % 0x40).toUInt8 =
      true := by
    simp only [admitsSecond, isContinuation_of_lt hlast, hfirst, Bool.true_and]
    split <;> first | omega | rfl
  have hlead : 0xC2 ≤ 0xC0 + c.toNat / 0x40 := by omega
  have hvalue : (0xC0 + c.toNat / 0x40 - 0xC0) * 0x40 + c.toNat % 0x40 = c.toNat := by omega
  conv => lhs; unfold decodeFrom
  simp only [hfirst, if_neg (show ¬ 0xC0 + c.toNat / 0x40 < 0x80 by omega),
    if_neg (lead_admitted hlead (by omega)), hsecond, Bool.not_true, Bool.false_eq_true, if_false,
    if_pos (show 0xC0 + c.toNat / 0x40 < 0xE0 by omega), payload_of_lt hlast, hvalue,
    Char.ofNat_toNat]

theorem decodeFrom_three (hlow : ¬ c.toNat < 0x800) (hhigh : c.toNat < 0x10000) :
    decodeFrom index ((0xE0 + c.toNat / 0x1000).toUInt8 ::
        (0x80 + c.toNat / 0x40 % 0x40).toUInt8 :: (0x80 + c.toNat % 0x40).toUInt8 :: rest) =
      (decodeFrom (index + 3) rest).map (c :: ·) := by
  have hvalid := toNat_char_bounds c
  have hfirst : (0xE0 + c.toNat / 0x1000).toUInt8.toNat = 0xE0 + c.toNat / 0x1000 :=
    toNat_toUInt8 (by omega)
  have hlast : c.toNat % 0x40 < 0x40 := Nat.mod_lt _ (by decide)
  have hmiddle : c.toNat / 0x40 % 0x40 < 0x40 := Nat.mod_lt _ (by decide)
  have hsecond : admitsSecond (0xE0 + c.toNat / 0x1000).toUInt8
      (0x80 + c.toNat / 0x40 % 0x40).toUInt8 = true := by
    simp only [admitsSecond, isContinuation_of_lt hmiddle, hfirst, Bool.true_and,
      toNat_toUInt8 (show 0x80 + c.toNat / 0x40 % 0x40 < 256 by omega)]
    -- `E0` leads no code point below U+0800, and `ED` no surrogate
    split <;> first | (rw [decide_eq_true_eq]; omega) | rfl
  have hvalue : (0xE0 + c.toNat / 0x1000 - 0xE0) * 0x1000 + c.toNat / 0x40 % 0x40 * 0x40 +
      c.toNat % 0x40 = c.toNat := by omega
  conv => lhs; unfold decodeFrom
  simp only [hfirst, if_neg (show ¬ 0xE0 + c.toNat / 0x1000 < 0x80 by omega),
    if_neg (lead_admitted (show 0xC2 ≤ 0xE0 + c.toNat / 0x1000 by omega) (by omega)), hsecond,
    Bool.not_true, Bool.false_eq_true, if_false,
    if_neg (show ¬ 0xE0 + c.toNat / 0x1000 < 0xE0 by omega),
    if_pos (show 0xE0 + c.toNat / 0x1000 < 0xF0 by omega), isContinuation_of_lt hlast,
    payload_of_lt hlast, payload_of_lt hmiddle, hvalue, Char.ofNat_toNat]

theorem decodeFrom_four (hlow : ¬ c.toNat < 0x10000) :
    decodeFrom index ((0xF0 + c.toNat / 0x40000).toUInt8 ::
        (0x80 + c.toNat / 0x1000 % 0x40).toUInt8 :: (0x80 + c.toNat / 0x40 % 0x40).toUInt8 ::
        (0x80 + c.toNat % 0x40).toUInt8 :: rest) =
      (decodeFrom (index + 4) rest).map (c :: ·) := by
  have hvalid := toNat_char_bounds c
  have hfirst : (0xF0 + c.toNat / 0x40000).toUInt8.toNat = 0xF0 + c.toNat / 0x40000 :=
    toNat_toUInt8 (by omega)
  have hlast : c.toNat % 0x40 < 0x40 := Nat.mod_lt _ (by decide)
  have hmiddle : c.toNat / 0x40 % 0x40 < 0x40 := Nat.mod_lt _ (by decide)
  have hupper : c.toNat / 0x1000 % 0x40 < 0x40 := Nat.mod_lt _ (by decide)
  have hsecond : admitsSecond (0xF0 + c.toNat / 0x40000).toUInt8
      (0x80 + c.toNat / 0x1000 % 0x40).toUInt8 = true := by
    simp only [admitsSecond, isContinuation_of_lt hupper, hfirst, Bool.true_and,
      toNat_toUInt8 (show 0x80 + c.toNat / 0x1000 % 0x40 < 256 by omega)]
    -- `F0` leads no code point below U+10000, and `F4` none above U+10FFFF
    split <;> first | (rw [decide_eq_true_eq]; omega) | rfl
  have hvalue : (0xF0 + c.toNat / 0x40000 - 0xF0) * 0x40000 + c.toNat / 0x1000 % 0x40 * 0x1000 +
      c.toNat / 0x40 % 0x40 * 0x40 + c.toNat % 0x40 = c.toNat := by omega
  conv => lhs; unfold decodeFrom
  simp only [hfirst, if_neg (show ¬ 0xF0 + c.toNat / 0x40000 < 0x80 by omega),
    if_neg (lead_admitted (show 0xC2 ≤ 0xF0 + c.toNat / 0x40000 by omega) (by omega)), hsecond,
    Bool.not_true, Bool.false_eq_true, if_false,
    if_neg (show ¬ 0xF0 + c.toNat / 0x40000 < 0xE0 by omega),
    if_neg (show ¬ 0xF0 + c.toNat / 0x40000 < 0xF0 by omega), isContinuation_of_lt hlast,
    isContinuation_of_lt hmiddle, payload_of_lt hlast, payload_of_lt hmiddle, payload_of_lt hupper,
    hvalue, Char.ofNat_toNat]

end Characters

/-- The bytes of a character are read as that character, and nothing behind them is
touched. -/
theorem decodeFrom_encodeChar (index : Nat) (c : Char) (rest : List UInt8) :
    ∃ next, decodeFrom index (encodeChar c ++ rest) = (decodeFrom next rest).map (c :: ·) := by
  simp only [encodeChar]
  split
  · rename_i hone
    exact ⟨index + 1, decodeFrom_one index rest hone⟩
  · rename_i hone
    split
    · rename_i htwo
      exact ⟨index + 2, decodeFrom_two index rest hone htwo⟩
    · rename_i htwo
      split
      · rename_i hthree
        exact ⟨index + 3, decodeFrom_three index rest htwo hthree⟩
      · rename_i hthree
        exact ⟨index + 4, decodeFrom_four index rest hthree⟩

theorem decodeFrom_encodeChars (index : Nat) (cs : List Char) :
    decodeFrom index (encodeChars cs) = .ok cs := by
  induction cs generalizing index with
  | nil => simp
  | cons c cs ih =>
      obtain ⟨next, hnext⟩ := decodeFrom_encodeChar index c (encodeChars cs)
      rw [encodeChars_cons, hnext, ih]
      rfl

/-- Every text is read back from its bytes. -/
theorem decode_utf8 (s : String) : decode (encode s) = .ok s := by
  rw [decode, encode, decodeFrom_encodeChars]
  simp [Except.map]

end SyntaxPack.Utf8
