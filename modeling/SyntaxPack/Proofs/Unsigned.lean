import SyntaxPack.Proofs.TwosComplement
/-!
# SyntaxPack.Proofs.Unsigned

Which number an unsigned base-128 number is read as.

Groups stand for the number in their low seven bits (`payload`), and a number may have more groups
than it needs. A word of 64 bits has room for nine groups and one bit of the tenth. A number that
ends within ten groups is read if and only if it fits, nine groups or fewer without an end are cut
short, and everything else is too long. What is not read leaves the slice as it was, so that the
place of a bad number can still be told (`readsExactly`).
-/

namespace SyntaxPack.Varint

variable {more value : Nat} {bytes groups rest : List UInt8} {b last : UInt8} {fault : Fault}

/-! ### One group -/

/-- With a single bit left, a number ends in a group that is 0 or 1. -/
theorem readUnsignedWithin_one (b : UInt8) (bytes : List UInt8) :
    readUnsignedWithin 1 (b :: bytes) =
      if b.toNat < 2 then .ok (b.toNat, bytes) else .error .overflow := by
  rw [readUnsignedWithin, show Nat.pow 2 1 = 2 from rfl, if_pos (show 1 ≤ 7 by decide)]
  split
  · rw [if_neg (by omega)]
  · split
    · rw [if_pos (by omega), Nat.mod_eq_of_lt (by assumption)]
    · rw [if_neg (by omega)]

variable (more b) in
/-- Where more groups have room, the first one does. -/
theorem group_lt : b.toNat % 128 < 2 ^ (7 * (more + 1) + 1) := by
  have hpow : 2 ^ 7 ≤ 2 ^ (7 * (more + 1) + 1) := Nat.pow_le_pow_right (by decide) (by omega)
  omega

/-- Where more groups have room, a number is its first group, or that and a number behind it. -/
theorem readUnsignedWithin_cons_eq_ok_iff :
    readUnsignedWithin (7 * (more + 1) + 1) (b :: bytes) = .ok (value, rest) ↔
      (b.toNat < 128 ∧ value = b.toNat ∧ rest = bytes) ∨
      (128 ≤ b.toNat ∧ ∃ high, readUnsignedWithin (7 * more + 1) bytes = .ok (high, rest) ∧
        value = b.toNat % 128 + 128 * high) := by
  have hfits : ¬ Nat.pow 2 (7 * (more + 1) + 1) ≤ b.toNat % 128 := Nat.not_le.mpr (group_lt more b)
  rw [readUnsignedWithin, if_neg hfits, if_neg (show ¬ 7 * (more + 1) + 1 ≤ 7 by omega),
    show 7 * (more + 1) + 1 - 7 = 7 * more + 1 by omega]
  split
  · rename_i hb
    simp [hb, Nat.not_le.mpr hb, Nat.mod_eq_of_lt hb, eq_comm]
  · rename_i hb
    simp only [hb, false_and, false_or, Nat.le_of_not_lt hb, true_and]
    split
    · rename_i high tail hread
      simp [hread, eq_comm, and_comm]
    · rename_i hread
      simp [hread]

/-- An error is that of the groups after the first one. -/
theorem readUnsignedWithin_cons_eq_error_iff :
    readUnsignedWithin (7 * (more + 1) + 1) (b :: bytes) = .error fault ↔
      128 ≤ b.toNat ∧ readUnsignedWithin (7 * more + 1) bytes = .error fault := by
  have hfits : ¬ Nat.pow 2 (7 * (more + 1) + 1) ≤ b.toNat % 128 := Nat.not_le.mpr (group_lt more b)
  rw [readUnsignedWithin, if_neg hfits, if_neg (show ¬ 7 * (more + 1) + 1 ≤ 7 by omega),
    show 7 * (more + 1) + 1 - 7 = 7 * more + 1 by omega]
  split
  · rename_i hb
    simp [Nat.not_le.mpr hb]
  · rename_i hb
    split
    · rename_i hread
      simp [hread]
    · rename_i hread
      simp [hread, Nat.le_of_not_lt hb]

/-! ### All groups -/

/-- Reading takes a number that ends in time and fits, and nothing behind it. -/
theorem readUnsignedWithin_eq_ok_iff :
    readUnsignedWithin (7 * more + 1) bytes = .ok (value, rest) ↔ ∃ groups last,
      StartsWith bytes groups last rest ∧ groups.length ≤ more ∧
        payload (groups ++ [last]) < 2 ^ (7 * more + 1) ∧ value = payload (groups ++ [last]) := by
  induction bytes generalizing more value with
  | nil =>
      simp only [readUnsignedWithin_nil, reduceCtorEq, false_iff]
      rintro ⟨groups, last, ⟨hbytes, -, -⟩, -⟩
      simp at hbytes
  | cons b bytes ih =>
      cases more with
      | zero =>
          rw [Nat.mul_zero, Nat.zero_add, readUnsignedWithin_one]
          constructor
          · intro h
            split at h
            · rename_i hb
              obtain ⟨rfl, rfl⟩ := Prod.mk.inj (Except.ok.inj h)
              have hmod : b.toNat % 128 = b.toNat := Nat.mod_eq_of_lt (by omega)
              refine ⟨[], b, (startsWith_cons_of_lt (by omega)).mpr ⟨rfl, rfl, rfl⟩, Nat.le_refl 0, ?_⟩
              simp [payload, hmod, hb]
            · simp at h
          · rintro ⟨groups, last, hstarts, hlength, hfits, rfl⟩
            obtain rfl := List.eq_nil_of_length_eq_zero (Nat.le_zero.mp hlength)
            obtain ⟨hbytes, -, hended⟩ := hstarts
            obtain ⟨rfl, rfl⟩ := List.cons.inj hbytes
            have hmod : b.toNat % 128 = b.toNat := Nat.mod_eq_of_lt hended
            simp only [List.nil_append, payload, hmod, Nat.mul_zero, Nat.add_zero] at hfits ⊢
            exact if_pos hfits
      | succ more =>
          have hpow : 2 ^ (7 * (more + 1) + 1) = 128 * 2 ^ (7 * more + 1) := by
            rw [show 7 * (more + 1) + 1 = 7 + (7 * more + 1) by omega, Nat.pow_add]
          rw [readUnsignedWithin_cons_eq_ok_iff]
          rcases Nat.lt_or_ge b.toNat 128 with hb | hb
          · simp only [startsWith_cons_of_lt hb, hb, true_and, Nat.not_le.mpr hb, false_and, or_false]
            have hmod : b.toNat % 128 = b.toNat := Nat.mod_eq_of_lt hb
            have hlt := group_lt more b
            constructor
            · rintro ⟨rfl, rfl⟩
              refine ⟨[], b, ⟨rfl, rfl, rfl⟩, Nat.zero_le _, ?_⟩
              simpa [payload, hmod] using hlt
            · rintro ⟨_, _, ⟨rfl, rfl, rfl⟩, -, -, rfl⟩
              simp [payload, hmod]
          · simp only [startsWith_cons_of_le hb, hb, true_and, Nat.not_lt.mpr hb, false_and, false_or,
              ih]
            constructor
            · rintro ⟨_, ⟨groups, last, hstarts, hlength, hfits, rfl⟩, rfl⟩
              refine ⟨b :: groups, last, ⟨groups, rfl, hstarts⟩, Nat.succ_le_succ hlength, ?_, rfl⟩
              rw [List.cons_append, payload, hpow]
              omega
            · rintro ⟨_, last, ⟨groups, rfl, hstarts⟩, hlength, hfits, rfl⟩
              rw [List.cons_append, payload, hpow] at hfits
              exact ⟨_, ⟨groups, last, hstarts, Nat.le_of_succ_le_succ hlength, by omega, rfl⟩, rfl⟩

/-- A number is cut short if none of the bytes ends it and there is room for another one. -/
theorem readUnsignedWithin_eq_truncated_iff :
    readUnsignedWithin (7 * more + 1) bytes = .error .truncated ↔
      bytes.length ≤ more ∧ ∀ b ∈ bytes, 128 ≤ b.toNat := by
  induction bytes generalizing more with
  | nil => simp
  | cons b bytes ih =>
      cases more with
      | zero =>
          rw [Nat.mul_zero, Nat.zero_add, readUnsignedWithin_one]
          split <;> simp
      | succ more =>
          rw [readUnsignedWithin_cons_eq_error_iff, ih, List.length_cons, List.forall_mem_cons,
            Nat.succ_le_succ_iff, and_left_comm]

/-- A number is too long if all groups before the last one that has room go on, and that one holds
more than a bit. -/
theorem readUnsignedWithin_eq_overflow_iff :
    readUnsignedWithin (7 * more + 1) bytes = .error .overflow ↔
      (∀ b ∈ bytes.take more, 128 ≤ b.toNat) ∧ ∃ b, bytes[more]? = some b ∧ 2 ≤ b.toNat := by
  induction bytes generalizing more with
  | nil => simp
  | cons b bytes ih =>
      cases more with
      | zero =>
          rw [Nat.mul_zero, Nat.zero_add, readUnsignedWithin_one]
          split <;> simp <;> omega
      | succ more =>
          rw [readUnsignedWithin_cons_eq_error_iff, ih, List.take_succ_cons, List.forall_mem_cons,
            List.getElem?_cons_succ, and_assoc]

/-! ### Numbers of 64 bits -/

/-- Reading takes a number of up to ten groups that fits into 64 bits. -/
theorem readUnsigned_eq_ok_iff : readUnsigned bytes = .ok (value, rest) ↔ ∃ groups last,
    StartsWith bytes groups last rest ∧ groups.length < 10 ∧
      payload (groups ++ [last]) < 2 ^ 64 ∧ value = payload (groups ++ [last]) := by
  rw [readUnsigned_eq]
  simp only [Nat.lt_succ_iff]
  exact @readUnsignedWithin_eq_ok_iff 9 value bytes rest

/-- What the loop that reads an unsigned number makes of a slice. -/
structure ReadsExactly (bytes : List UInt8) : Prop where
  /-- A number that ends within ten groups is read as its value if that fits into 64 bits, and the
  slice is left right behind it. -/
  ok_iff : ∀ word left, decodeUnsigned bytes = .ok word left ↔ ∃ groups last,
    StartsWith bytes groups last left ∧ groups.length < 10 ∧
      payload (groups ++ [last]) < 2 ^ 64 ∧ word.toNat = payload (groups ++ [last])
  /-- Up to nine bytes, none of which is the last, are cut short. -/
  truncated_iff : (∃ left, decodeUnsigned bytes = .error .truncated left) ↔
    bytes.length ≤ 9 ∧ ∀ b ∈ bytes, 128 ≤ b.toNat
  /-- Everything else is an overflow. -/
  overflow_iff : (∃ left, decodeUnsigned bytes = .error .overflow left) ↔
    (∀ groups last rest, StartsWith bytes groups last rest → groups.length < 10 →
      2 ^ 64 ≤ payload (groups ++ [last])) ∧
    ¬ (bytes.length ≤ 9 ∧ ∀ b ∈ bytes, 128 ≤ b.toNat)
  /-- That is, nine groups go on and the tenth holds more than the bit that is left. -/
  tenth_iff : (∃ left, decodeUnsigned bytes = .error .overflow left) ↔
    (∀ b ∈ bytes.take 9, 128 ≤ b.toNat) ∧ ∃ b, bytes[9]? = some b ∧ 2 ≤ b.toNat
  /-- Whatever the fault, the slice is left where it was. -/
  unchanged : ∀ fault left, decodeUnsigned bytes = .error fault left → left = bytes
  /-- A reader moves by as many bytes as there are groups. -/
  consumed : ∀ groups last left word offset, StartsWith bytes groups last left →
    decodeUnsigned bytes = .ok word left →
      Read.unsigned ⟨bytes, offset⟩ = .ok word.toNat ⟨left, offset + (groups.length + 1)⟩
  /-- A reader that cannot read a number reports where it is, and stays there. -/
  reported : ∀ fault left offset, decodeUnsigned bytes = .error fault left →
    Read.unsigned ⟨bytes, offset⟩ =
      .error (Read.varintError ⟨bytes, offset⟩ fault) ⟨bytes, offset⟩

/-- The slice aside, the loop has the faults of reading group by group. -/
theorem exists_decodeUnsigned_eq_error_iff : (∃ left, decodeUnsigned bytes = .error fault left) ↔
    readUnsignedWithin 64 bytes = .error fault := by
  simp only [decodeUnsigned_eq_error_iff, exists_and_left, exists_eq, and_true]

/-- Whatever the bytes, an unsigned number is read as its value, or refused for one of two reasons,
and only a number that is read moves the slice. -/
theorem readsExactly (bytes : List UInt8) : ReadsExactly bytes := by
  have hok : ∀ word left, decodeUnsigned bytes = .ok word left ↔ ∃ groups last,
      StartsWith bytes groups last left ∧ groups.length < 10 ∧
        payload (groups ++ [last]) < 2 ^ 64 ∧ word.toNat = payload (groups ++ [last]) := by
    intro word left
    rw [decodeUnsigned_eq_ok_iff, ← readUnsigned_eq]
    exact readUnsigned_eq_ok_iff
  have htruncated : (∃ left, decodeUnsigned bytes = .error .truncated left) ↔
      bytes.length ≤ 9 ∧ ∀ b ∈ bytes, 128 ≤ b.toNat :=
    exists_decodeUnsigned_eq_error_iff.trans (@readUnsignedWithin_eq_truncated_iff 9 bytes)
  refine ⟨hok, htruncated, ?_,
    exists_decodeUnsigned_eq_error_iff.trans (@readUnsignedWithin_eq_overflow_iff 9 bytes),
    fun fault left hrun => (decodeUnsigned_eq_error_iff.mp hrun).2,
    fun groups last left word offset hstarts hrun => ?_, fun fault left offset hrun => ?_⟩
  · rw [← htruncated]
    cases hrun : decodeUnsigned bytes with
    | ok word left =>
        obtain ⟨groups, last, hstarts, hlength, hfits, -⟩ := (hok word left).mp hrun
        simp only [reduceCtorEq, exists_false, not_false_eq_true, and_true, false_iff]
        exact fun hall => absurd (hall groups last left hstarts hlength) (Nat.not_le.mpr hfits)
    | error fault left =>
        have hnone : ∀ groups last rest, StartsWith bytes groups last rest → groups.length < 10 →
            2 ^ 64 ≤ payload (groups ++ [last]) := by
          intro groups last rest hstarts hlength
          by_contra hfits
          have hsome := (hok (payload (groups ++ [last])).toUInt64 rest).mpr
            ⟨groups, last, hstarts, hlength, Nat.lt_of_not_le hfits,
              toNat_toUInt64 (Nat.lt_of_not_le hfits)⟩
          simp [hrun] at hsome
        cases fault with
        | truncated => simp
        | overflow => simpa using hnone
  · have hread := (readUnsigned_eq bytes).trans (decodeUnsigned_eq_ok_iff.mp hrun)
    exact Read.varint_eq_ok_iff.mpr ⟨left, hread, by rw [hstarts.groupCount_eq]⟩
  · have hread := (readUnsigned_eq bytes).trans (decodeUnsigned_eq_error_iff.mp hrun).1
    exact Read.varint_eq_error_iff.mpr ⟨fault, hread, rfl, rfl⟩

end SyntaxPack.Varint
