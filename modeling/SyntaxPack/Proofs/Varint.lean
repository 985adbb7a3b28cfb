import Mathlib.Algebra.Ring.Int.Defs
import SyntaxPack.Varint
import SyntaxPack.Proofs.Reader
/-!
# SyntaxPack.Proofs.Varint

Base-128 numbers are read back as they were written.

Reading limits the number of bits, so each statement carries a bound that shrinks by
seven bits with every group.
-/

namespace SyntaxPack

theorem toNat_toUInt8 {n : Nat} (h : n < 256) : n.toUInt8.toNat = n := by
  rw [Nat.toUInt8, UInt8.toNat_ofNat']
  omega

namespace Varint

/-- An unsigned number of at most `bits` bits is read back, whatever follows it. -/
theorem readUnsignedWithin_encodeUnsigned {bits n : Nat} (h : n < 2 ^ bits) (rest : List UInt8) :
    readUnsignedWithin bits (encodeUnsigned n ++ rest) = .ok (n, rest) := by
  induction n using Nat.strongRecOn generalizing bits with
  | ind n ih =>
      by_cases hn : n < 128
      · have hbyte : n.toUInt8.toNat = n := toNat_toUInt8 (by omega)
        have hgroup : n % 128 = n := Nat.mod_eq_of_lt hn
        have hbits : ¬ Nat.pow 2 bits ≤ n := Nat.not_le.mpr h
        rw [encodeUnsigned_of_lt hn, List.singleton_append, readUnsignedWithin]
        simp only [hbyte, hgroup, if_neg hbits, if_pos hn]
      · have hle : 128 ≤ n := Nat.le_of_not_lt hn
        -- More than one group means more than seven bits.
        have hbits : 7 < bits := by
          by_contra hsmall
          have : 2 ^ bits ≤ 2 ^ 7 := Nat.pow_le_pow_right (by decide) (by omega)
          omega
        have hpow : 2 ^ bits = 128 * 2 ^ (bits - 7) := by
          rw [show (128 : Nat) = 2 ^ 7 by rfl, ← Nat.pow_add]
          congr 1
          omega
        have hbyte : (n % 128 + 128).toUInt8.toNat = n % 128 + 128 := toNat_toUInt8 (by omega)
        have hgroup : (n % 128 + 128) % 128 = n % 128 := by omega
        have hfits : ¬ Nat.pow 2 bits ≤ n % 128 := by
          show ¬ 2 ^ bits ≤ n % 128
          omega
        have hhigh := @ih (n / 128) (by omega) (bits - 7) (by omega)
        rw [encodeUnsigned_of_le hle, List.cons_append, readUnsignedWithin]
        simp only [hbyte, hgroup, if_neg hfits, if_neg (show ¬ n % 128 + 128 < 128 by omega),
          if_neg (show ¬ bits ≤ 7 by omega), hhigh, Except.ok.injEq, Prod.mk.injEq, and_true]
        omega

theorem readUnsigned_encodeUnsigned {n : Nat} (h : n < 2 ^ 64) (rest : List UInt8) :
    readUnsigned (encodeUnsigned n ++ rest) = .ok (n, rest) := by
  rw [readUnsigned_eq]
  exact readUnsignedWithin_encodeUnsigned h rest

/-- What is read where a number was written is that number, however large it is. -/
theorem eq_of_readUnsignedWithin {bits n value : Nat} {rest rest' : List UInt8}
    (h : readUnsignedWithin bits (encodeUnsigned n ++ rest) = .ok (value, rest')) : value = n := by
  induction n using Nat.strongRecOn generalizing bits value rest' with
  | ind n ih =>
      by_cases hn : n < 128
      · have hbyte : n.toUInt8.toNat = n := toNat_toUInt8 (by omega)
        rw [encodeUnsigned_of_lt hn, List.singleton_append, readUnsignedWithin] at h
        simp only [hbyte, Nat.mod_eq_of_lt hn, if_pos hn] at h
        split at h
        · simp at h
        · exact (Prod.mk.inj (Except.ok.inj h)).1.symm
      · have hle : 128 ≤ n := Nat.le_of_not_lt hn
        have hbyte : (n % 128 + 128).toUInt8.toNat = n % 128 + 128 := toNat_toUInt8 (by omega)
        rw [encodeUnsigned_of_le hle, List.cons_append, readUnsignedWithin] at h
        simp only [hbyte, if_neg (show ¬ n % 128 + 128 < 128 by omega)] at h
        split at h
        · simp at h
        · split at h
          · simp at h
          · split at h
            · rename_i high tail hread
              obtain rfl := ih (n / 128) (by omega) hread
              have hvalue := (Prod.mk.inj (Except.ok.inj h)).1
              omega
            · simp at h

theorem encodeUnsigned_ne_nil (n : Nat) : encodeUnsigned n ≠ [] := by
  by_cases hn : n < 128
  · rw [encodeUnsigned_of_lt hn]
    simp
  · rw [encodeUnsigned_of_le (Nat.le_of_not_lt hn)]
    simp

/-- A larger number takes no fewer bytes. -/
theorem length_encodeUnsigned_le {m n : Nat} (hmn : m ≤ n) :
    (encodeUnsigned m).length ≤ (encodeUnsigned n).length := by
  induction n using Nat.strongRecOn generalizing m with
  | ind n ih =>
      by_cases hm : m < 128
      · have hpos := List.length_pos_iff.mpr (encodeUnsigned_ne_nil n)
        rw [encodeUnsigned_of_lt hm, List.length_singleton]
        exact hpos
      · have hle : 128 ≤ m := Nat.le_of_not_lt hm
        have hgroups := ih (n / 128) (by omega) (Nat.div_le_div_right (c := 128) hmn)
        rw [encodeUnsigned_of_le hle, encodeUnsigned_of_le (Nat.le_trans hle hmn)]
        exact Nat.succ_le_succ hgroups

/-! ### Signed numbers -/

/-- The last group of a number that fits into the rest of a 64-bit word is its value. -/
theorem lastGroup_of_fits {shift : Nat} {i : Int} (hshift : shift + 7 < 64 ∨ shift = 63)
    (hlow : -2 ^ (63 - shift) ≤ i) (hhigh : i < 2 ^ (63 - shift))
    (hlast : (i / 128 = 0 ∧ (i % 128).toNat < 64) ∨ (i / 128 = -1 ∧ 64 ≤ (i % 128).toNat)) :
    lastGroup shift (i % 128).toNat = i := by
  rcases hshift with hshift | rfl
  · rw [lastGroup, if_pos hshift]
    split <;> omega
  · rw [lastGroup, if_neg (by decide)]
    -- Only one bit of the word is left, so the number is 0 or -1.
    simp only [Nat.sub_self] at hlow hhigh
    omega

/-- A signed number that fits into the rest of a 64-bit word is read back, whatever
follows it. -/
theorem readSignedFrom_encodeSignedUpTo {shift more : Nat} {i : Int} (hmore : i.natAbs ≤ more)
    (hshift : shift + 7 < 64 ∨ shift = 63) (hgroups : shift % 7 = 0)
    (hlow : -2 ^ (63 - shift) ≤ i) (hhigh : i < 2 ^ (63 - shift)) (rest : List UInt8) :
    readSignedFrom shift (encodeSignedUpTo more i ++ rest) = .ok (i, rest) := by
  have hroom : ¬ 64 ≤ shift := by omega
  induction more generalizing shift i with
  | zero =>
      obtain rfl : i = 0 := by omega
      rw [encodeSignedUpTo, List.singleton_append, readSignedFrom, if_neg hroom]
      have hlast := lastGroup_of_fits hshift hlow hhigh (Or.inl ⟨rfl, by decide⟩)
      simpa using hlast
  | succ more ih =>
      have hmod : 0 ≤ i % 128 ∧ i % 128 < 128 := by omega
      rw [encodeSignedUpTo]
      split
      · rename_i hlast
        have hbyte : (i % 128).toNat.toUInt8.toNat = (i % 128).toNat := toNat_toUInt8 (by omega)
        rw [List.singleton_append, readSignedFrom, if_neg hroom]
        simp only [hbyte, if_pos (show (i % 128).toNat < 128 by omega),
          lastGroup_of_fits hshift hlow hhigh hlast]
      · rename_i hmore'
        -- At the last bit of the word every number that fits ends.
        have hnext : shift + 7 < 64 := by
          rcases hshift with hshift | rfl
          · exact hshift
          · simp only [Nat.sub_self, pow_zero] at hlow hhigh
            omega
        have hpow : (2 : Int) ^ (63 - shift) = 128 * 2 ^ (63 - (shift + 7)) := by
          rw [show (128 : Int) = 2 ^ 7 by rfl, ← pow_add]
          congr 1
          omega
        have hbyte : ((i % 128).toNat + 128).toUInt8.toNat = (i % 128).toNat + 128 :=
          toNat_toUInt8 (by omega)
        have hhigh' := @ih (shift + 7) (i / 128) (by omega) (by omega) (by omega) (by omega)
          (by omega) (by omega)
        rw [List.cons_append, readSignedFrom, if_neg hroom]
        simp only [hbyte, if_neg (show ¬ (i % 128).toNat + 128 < 128 by omega), hhigh',
          Except.ok.injEq, Prod.mk.injEq, and_true]
        omega

theorem readSigned_encodeSigned {i : Int} (hlow : -2 ^ 63 ≤ i) (hhigh : i < 2 ^ 63)
    (rest : List UInt8) : readSigned (encodeSigned i ++ rest) = .ok (i, rest) := by
  rw [readSigned_eq]
  exact readSignedFrom_encodeSignedUpTo (Nat.le_refl _) (Or.inl (by decide)) rfl hlow hhigh rest

theorem encodeSigned_ne_nil (i : Int) : encodeSigned i ≠ [] := by
  cases hmore : i.natAbs with
  | zero => simp [encodeSigned, hmore, encodeSignedUpTo]
  | succ more =>
      rw [encodeSigned, hmore, encodeSignedUpTo]
      split <;> simp

end Varint

end SyntaxPack
