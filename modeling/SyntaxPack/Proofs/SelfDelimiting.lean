import SyntaxPack.Proofs.Unsigned
/-!
# SyntaxPack.Proofs.SelfDelimiting

Base-128 numbers are written in the shortest form there is, and the form shows where it ends.

What a form of some groups can stand for has at most seven bits for each of them, one of these being
the sign of a signed number, and the form that is written has no more groups than these bits need.
So a form of fewer groups stands for other numbers (`Shortest.minimal`). A signed form of ten groups
is cut to a word when it is read, but no number of 64 bits is written in more groups than that, so
whatever is cut off cannot make a form shorter than the one that is written.
-/

namespace SyntaxPack.Varint

variable {n : Nat} {i : Int} {bytes rest : List UInt8}

/-! ### Unsigned numbers -/

theorem encodedSize_of_lt (h : n < 128) : encodedSize n = 1 := by
  rw [encodedSize]
  split
  · rfl
  · rename_i hzero
    have hlog : n.log2 < 7 := (Nat.log2_lt hzero).mpr h
    omega

/-- A group takes seven of the significant bits. -/
theorem encodedSize_of_le (h : 128 ≤ n) : encodedSize n = encodedSize (n / 128) + 1 := by
  have hlog : n.log2 = (n / 128).log2 + 7 := by
    have hlow : 2 ^ (n / 128).log2 ≤ n / 128 := Nat.log2_self_le (by omega)
    have hhigh : n / 128 < 2 ^ ((n / 128).log2 + 1) := Nat.lt_log2_self
    rw [Nat.log2_eq_iff (by omega)]
    simp only [Nat.pow_add, Nat.reducePow] at hhigh ⊢
    omega
  rw [encodedSize, encodedSize, if_neg (by omega), if_neg (by omega), hlog]
  omega

/-- The number of bytes that are written is known from the number of significant bits. -/
theorem length_encodeUnsigned (n : Nat) : (encodeUnsigned n).length = encodedSize n := by
  induction n using Nat.strongRecOn with
  | ind n ih =>
      rcases Nat.lt_or_ge n 128 with h | h
      · rw [encodeUnsigned_of_lt h, encodedSize_of_lt h, List.length_singleton]
      · rw [encodeUnsigned_of_le h, encodedSize_of_le h, List.length_cons, ih (n / 128) (by omega)]

/-- What groups stand for needs no more of them. -/
theorem length_encodeUnsigned_payload (groups : List UInt8) (last : UInt8) :
    (encodeUnsigned (payload (groups ++ [last]))).length ≤ groups.length + 1 := by
  induction groups with
  | nil =>
      have hlast : payload [last] < 128 := by simpa using payload_lt [last]
      rw [List.nil_append, encodeUnsigned_of_lt hlast, List.length_singleton, List.length_nil]
  | cons b groups ih =>
      rw [List.cons_append, payload, List.length_cons]
      rcases Nat.lt_or_ge (b.toNat % 128 + 128 * payload (groups ++ [last])) 128 with h | h
      · rw [encodeUnsigned_of_lt h, List.length_singleton]
        omega
      · have hdiv : (b.toNat % 128 + 128 * payload (groups ++ [last])) / 128 =
            payload (groups ++ [last]) := by omega
        rw [encodeUnsigned_of_le h, hdiv, List.length_cons]
        exact Nat.succ_le_succ ih

/-! ### Signed numbers -/

/-- Room for more groups than a number has changes nothing. -/
theorem encodeSignedUpTo_eq {a b : Nat} (ha : i.natAbs ≤ a) (hb : i.natAbs ≤ b) :
    encodeSignedUpTo a i = encodeSignedUpTo b i := by
  induction a generalizing b i with
  | zero =>
      obtain rfl : i = 0 := by omega
      cases b <;> simp [encodeSignedUpTo]
  | succ a ih =>
      cases b with
      | zero =>
          obtain rfl : i = 0 := by omega
          simp [encodeSignedUpTo]
      | succ b =>
          simp only [encodeSignedUpTo]
          split
          · rfl
          · rw [ih (b := b) (by omega) (by omega)]

/-- A number of seven bits, one of them the sign, is one group. -/
theorem encodeSigned_of_fits (hlow : -64 ≤ i) (hhigh : i < 64) :
    encodeSigned i = [(i % 128).toNat.toUInt8] := by
  rw [encodeSigned]
  cases hmore : i.natAbs with
  | zero => rfl
  | succ more => rw [encodeSignedUpTo, if_pos (by omega)]

/-- A larger one starts with its lowest seven bits. -/
theorem encodeSigned_of_exceeds (h : i < -64 ∨ 64 ≤ i) :
    encodeSigned i = ((i % 128).toNat + 128).toUInt8 :: encodeSigned (i / 128) := by
  obtain ⟨more, hmore⟩ := Nat.exists_eq_succ_of_ne_zero (show i.natAbs ≠ 0 by omega)
  rw [encodeSigned, hmore, encodeSignedUpTo, if_neg (by omega), encodeSigned,
    encodeSignedUpTo_eq (a := more) (b := (i / 128).natAbs) (by omega) (by omega)]

/-- Every group makes room for seven more bits. -/
theorem length_encodeSigned_le (more : Nat) (hlow : -64 * 128 ^ more ≤ i)
    (hhigh : i < 64 * 128 ^ more) : (encodeSigned i).length ≤ more + 1 := by
  induction more generalizing i with
  | zero => rw [encodeSigned_of_fits (by omega) (by omega), List.length_singleton]
  | succ more ih =>
      by_cases hfits : -64 ≤ i ∧ i < 64
      · rw [encodeSigned_of_fits hfits.1 hfits.2, List.length_singleton]
        omega
      · rw [encodeSigned_of_exceeds (by omega), List.length_cons]
        rw [pow_succ] at hlow hhigh
        exact Nat.succ_le_succ (ih (by omega) (by omega))

/-- A number of 64 bits is written in at most ten groups. -/
theorem length_encodeSigned_le_ten (hlow : -2 ^ 63 ≤ i) (hhigh : i < 2 ^ 63) :
    (encodeSigned i).length ≤ 10 :=
  length_encodeSigned_le 9 (by omega) (by omega)

/-! ### Forms that cannot be shortened -/

theorem StartsWith.length_eq {groups : List UInt8} {last : UInt8}
    (h : StartsWith bytes groups last rest) : bytes.length = groups.length + 1 + rest.length := by
  rw [h.bytes_eq, List.length_append, List.length_cons]
  omega

/-- Whatever an unsigned number is read from is as long as what is written for it. -/
theorem length_le_of_readUnsigned (h : readUnsigned bytes = .ok (n, rest)) :
    (encodeUnsigned n).length + rest.length ≤ bytes.length := by
  obtain ⟨groups, last, hstarts, -, -, rfl⟩ := readUnsigned_eq_ok_iff.mp h
  have hlength := length_encodeUnsigned_payload groups last
  rw [hstarts.length_eq]
  omega

/-- Whatever a signed number is read from is as long as what is written for it. -/
theorem length_le_of_readSigned (hlow : -2 ^ 63 ≤ i) (hhigh : i < 2 ^ 63)
    (h : readSigned bytes = .ok (i, rest)) :
    (encodeSigned i).length + rest.length ≤ bytes.length := by
  obtain ⟨groups, last, hstarts, hlength, hvalue⟩ := readSigned_eq_ok_iff.mp h
  suffices (encodeSigned i).length ≤ groups.length + 1 by
    rw [hstarts.length_eq]
    omega
  rcases Nat.lt_or_ge groups.length 9 with hshort | hlong
  · -- up to nine groups stand for what is read, and that has no more bits than they have
    have hfits := (hstarts.fits_iff hlength).mpr (Or.inl hshort)
    rw [(bmod_word_eq_self_iff _).mpr hfits] at hvalue
    obtain ⟨hbelow, habove⟩ := signedValue_bounds groups hstarts.ended
    rw [← hvalue] at hbelow habove
    exact length_encodeSigned_le groups.length hbelow habove
  · exact (length_encodeSigned_le_ten hlow hhigh).trans (Nat.succ_le_succ hlong)

/-- The form in which a number is written shows where it ends, and no other one is shorter. -/
structure Shortest {α : Type} (write : α → List UInt8)
    (read : List UInt8 → Except Fault (α × List UInt8)) (value : α) : Prop where
  /-- The number is read back whatever stands behind it, and nothing of that is read. -/
  delimited : ∀ rest, read (write value ++ rest) = .ok (value, rest)
  /-- All bytes that are read as the number have at least as many in front of the rest. -/
  minimal : ∀ bytes rest, read bytes = .ok (value, rest) →
    (write value).length + rest.length ≤ bytes.length

/-- Words of 64 bits, without a sign and with one, are written in the shortest form, whose length is
known for the one kind and is at most ten for the other. -/
theorem shortest_words (n : UInt64) (i : Int64) :
    Shortest encodeUnsigned readUnsigned n.toNat ∧
      (encodeUnsigned n.toNat).length = encodedSize n.toNat ∧
      Shortest encodeSigned readSigned i.toInt ∧ (encodeSigned i.toInt).length ≤ 10 := by
  have hlow := i.le_toInt
  have hhigh := i.toInt_lt
  refine ⟨⟨readUnsigned_encodeUnsigned n.toNat_lt, fun _ _ => length_le_of_readUnsigned⟩,
    length_encodeUnsigned n.toNat, ⟨readSigned_encodeSigned hlow hhigh, fun _ _ =>
      length_le_of_readSigned hlow hhigh⟩, length_encodeSigned_le_ten hlow hhigh⟩

/-- The smallest word with a sign fills all ten groups. -/
example : (encodeSigned (-2 ^ 63)).length = 10 ∧ encodedSize (2 ^ 64 - 1) = 10 := by decide

end SyntaxPack.Varint
