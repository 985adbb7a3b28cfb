import SyntaxPack.Proofs.Written
/-!
# SyntaxPack.Proofs.TwosComplement

Which integer a signed base-128 number is read as.

Groups stand for an integer in two's complement, however many there are (`signedValue`). A 64-bit
word has room for nine of them and one bit of the tenth, and reading keeps what the word has room
for: the value modulo `2 ^ 64`. So a number of up to nine groups is read exactly, and one of ten
groups if and only if the tenth repeats one bit, the sign. All others are read as another integer,
not refused (`readsWrapped`).
-/

namespace SyntaxPack.Varint

/-- The number in the low seven bits of bytes, least significant first. -/
def payload : List UInt8 → Nat
  | [] => 0
  | b :: bytes => b.toNat % 128 + 128 * payload bytes

/-- The integer that groups stand for: their payload in two's complement, the sign being bit 6 of
the last one. -/
def signedValue (groups : List UInt8) (last : UInt8) : Int :=
  if last.toNat % 128 < 64 then (payload (groups ++ [last]) : Int)
  else (payload (groups ++ [last]) : Int) - 128 ^ (groups.length + 1)

/-- Bytes that start with a number: groups with a continuation bit and one without. -/
structure StartsWith (bytes groups : List UInt8) (last : UInt8) (rest : List UInt8) : Prop where
  /-- The groups stand in front. -/
  bytes_eq : bytes = groups ++ last :: rest
  /-- Another group follows each of these. -/
  continued : ∀ b ∈ groups, 128 ≤ b.toNat
  /-- None follows this one. -/
  ended : last.toNat < 128

variable {shift left : Nat} {bytes groups rest : List UInt8} {b last : UInt8} {value : Int}

/-! ### Groups -/

theorem signedValue_nil (hlast : last.toNat < 128) :
    signedValue [] last = if last.toNat < 64 then (last.toNat : Int) else last.toNat - 128 := by
  have hmod : last.toNat % 128 = last.toNat := Nat.mod_eq_of_lt hlast
  simp [signedValue, payload, hmod]

theorem signedValue_cons (b : UInt8) (groups : List UInt8) (last : UInt8) :
    signedValue (b :: groups) last =
      ((b.toNat % 128 : Nat) : Int) + 128 * signedValue groups last := by
  have hpow : (128 : Int) ^ (groups.length + 1 + 1) = 128 * 128 ^ (groups.length + 1) :=
    pow_succ' 128 (groups.length + 1)
  simp only [signedValue, List.cons_append, payload, List.length_cons, hpow]
  split <;> omega

theorem payload_lt (bytes : List UInt8) : payload bytes < 128 ^ bytes.length := by
  induction bytes with
  | nil => simp [payload]
  | cons b bytes ih =>
      rw [payload, List.length_cons, Nat.pow_succ']
      omega

/-- The last group counts above all others, and it alone has a sign. -/
theorem signedValue_eq (groups : List UInt8) (last : UInt8) :
    signedValue groups last = payload groups + 128 ^ groups.length * signedValue [] last := by
  induction groups with
  | nil => simp [payload]
  | cons b groups ih =>
      rw [signedValue_cons, ih, payload, List.length_cons, pow_succ', Int.mul_assoc]
      omega

/-- Every group makes room for seven more bits, one of them the sign. -/
theorem signedValue_bounds (groups : List UInt8) (hlast : last.toNat < 128) :
    -64 * 128 ^ groups.length ≤ signedValue groups last ∧
      signedValue groups last < 64 * 128 ^ groups.length := by
  induction groups with
  | nil =>
      rw [signedValue_nil hlast, List.length_nil, pow_zero]
      split <;> omega
  | cons b groups ih =>
      rw [signedValue_cons, List.length_cons, pow_succ']
      omega

theorem startsWith_cons_of_lt (hb : b.toNat < 128) :
    StartsWith (b :: bytes) groups last rest ↔ groups = [] ∧ last = b ∧ rest = bytes := by
  constructor
  · rintro ⟨hbytes, hcontinued, -⟩
    cases groups with
    | nil =>
        obtain ⟨rfl, rfl⟩ := List.cons.inj hbytes
        exact ⟨rfl, rfl, rfl⟩
    | cons c groups =>
        obtain ⟨rfl, -⟩ := List.cons.inj hbytes
        exact absurd (hcontinued b List.mem_cons_self) (Nat.not_le.mpr hb)
  · rintro ⟨rfl, rfl, rfl⟩
    exact ⟨rfl, by simp, hb⟩

theorem startsWith_cons_of_le (hb : 128 ≤ b.toNat) :
    StartsWith (b :: bytes) groups last rest ↔
      ∃ more, groups = b :: more ∧ StartsWith bytes more last rest := by
  constructor
  · rintro ⟨hbytes, hcontinued, hended⟩
    cases groups with
    | nil =>
        obtain ⟨rfl, -⟩ := List.cons.inj hbytes
        omega
    | cons c groups =>
        obtain ⟨rfl, rfl⟩ := List.cons.inj hbytes
        exact ⟨groups, rfl, rfl, fun c hc => hcontinued c (List.mem_cons_of_mem b hc), hended⟩
  · rintro ⟨more, rfl, rfl, hcontinued, hended⟩
    exact ⟨rfl, List.forall_mem_cons.mpr ⟨hb, hcontinued⟩, hended⟩

/-! ### Words -/

/-- A group below an even number of others keeps its place when those are cut. -/
theorem bmod_group {group : Int} {m : Nat} (hlow : 0 ≤ group) (hhigh : group < 128) (hm : 2 ∣ m)
    (hpos : 0 < m) (x : Int) : (group + 128 * x).bmod (128 * m) = group + 128 * x.bmod m := by
  obtain ⟨n, rfl⟩ := hm
  have hleft := Int.le_bmod (x := x) hpos
  have hright := Int.bmod_lt (x := x) hpos
  obtain ⟨q, hq⟩ := Int.dvd_bmod_sub_self (x := x) (m := 2 * n)
  rw [Int.bmod_eq_iff (by omega)]
  refine ⟨by omega, by omega, q, ?_⟩
  push_cast at hq ⊢
  rw [Int.mul_assoc, ← hq]
  omega

/-- The last group is cut to what is left of the word. -/
theorem lastGroup_eq_bmod (hleft : shift + 7 * left = 63) (hlast : last.toNat < 128) :
    lastGroup shift last.toNat = (signedValue [] last).bmod (2 ^ (7 * left + 1)) := by
  rw [signedValue_nil hlast, lastGroup]
  cases left with
  | zero =>
      -- Of the tenth group only the lowest bit is left, and it is the sign.
      rw [if_neg (by omega), Nat.mul_zero, Nat.zero_add, Nat.pow_one, Int.bmod_def]
      split <;> split <;> omega
  | succ left =>
      have hpow : 256 ≤ 2 ^ (7 * (left + 1) + 1) :=
        Nat.pow_le_pow_right (n := 2) (by decide) (show 8 ≤ 7 * (left + 1) + 1 by omega)
      rw [if_pos (by omega), Int.bmod_eq_of_le_mul_two]
      · split <;> omega
      · split <;> omega

/-- What is cut off a number is cut off the groups after its first one. -/
theorem signedValue_cons_bmod (b : UInt8) (groups : List UInt8) (last : UInt8) (hleft : 0 < left) :
    (signedValue (b :: groups) last).bmod (2 ^ (7 * (left + 1) - 6)) =
      ((b.toNat % 128 : Nat) : Int) + 128 * (signedValue groups last).bmod (2 ^ (7 * left - 6)) := by
  have hpow : 2 ^ (7 * (left + 1) - 6) = 128 * 2 ^ (7 * left - 6) := by
    rw [show 7 * (left + 1) - 6 = 7 + (7 * left - 6) by omega, Nat.pow_add]
  have heven : 2 ∣ 2 ^ (7 * left - 6) := Nat.dvd_of_pow_dvd (show 1 ≤ 7 * left - 6 by omega) (Nat.dvd_refl _)
  rw [signedValue_cons, hpow,
    bmod_group (by omega) (by omega) heven (Nat.two_pow_pos (7 * left - 6))]

/-- Reading keeps as many bits of a number as are left of the word. -/
theorem readSignedFrom_eq_ok_iff (hleft : shift + 7 * left = 70) :
    readSignedFrom shift bytes = .ok (value, rest) ↔ ∃ groups last,
      StartsWith bytes groups last rest ∧ groups.length < left ∧
        value = (signedValue groups last).bmod (2 ^ (7 * left - 6)) := by
  induction bytes generalizing shift left value with
  | nil =>
      simp only [readSignedFrom_nil, reduceCtorEq, false_iff]
      rintro ⟨groups, last, ⟨hbytes, -, -⟩, -⟩
      simp at hbytes
  | cons b bytes ih =>
      rw [readSignedFrom]
      cases left with
      | zero => simp [show 64 ≤ shift by omega]
      | succ left =>
          rw [if_neg (show ¬ 64 ≤ shift by omega)]
          split
          · rename_i hb
            simp only [startsWith_cons_of_lt hb, Except.ok.injEq, Prod.mk.injEq]
            have hshift : shift + 7 * left = 63 := by omega
            rw [lastGroup_eq_bmod hshift hb, show 7 * (left + 1) - 6 = 7 * left + 1 by omega]
            constructor
            · rintro ⟨rfl, rfl⟩
              exact ⟨[], b, ⟨rfl, rfl, rfl⟩, Nat.succ_pos left, rfl⟩
            · rintro ⟨_, _, ⟨rfl, rfl, rfl⟩, -, rfl⟩
              exact ⟨rfl, rfl⟩
          · rename_i hb
            simp only [startsWith_cons_of_le (Nat.le_of_not_lt hb)]
            have hmore := fun {value} => @ih (shift + 7) left value (by omega)
            constructor
            · intro h
              split at h
              · rename_i high tail hread
                obtain ⟨rfl, rfl⟩ := Prod.mk.inj (Except.ok.inj h)
                obtain ⟨groups, last, hstarts, hlength, rfl⟩ := hmore.mp hread
                refine ⟨b :: groups, last, ⟨groups, rfl, hstarts⟩, Nat.succ_lt_succ hlength, ?_⟩
                rw [signedValue_cons_bmod b groups last (by omega)]
              · simp at h
            · rintro ⟨_, last, ⟨groups, rfl, hstarts⟩, hlength, rfl⟩
              have hlength : groups.length < left := Nat.lt_of_succ_lt_succ hlength
              rw [hmore.mpr ⟨groups, last, hstarts, hlength, rfl⟩,
                signedValue_cons_bmod b groups last (by omega)]

/-- An error is that of the groups after the first one. -/
theorem readSignedFrom_cons_eq_error_iff {fault : Fault} (hshift : shift < 64) :
    readSignedFrom shift (b :: bytes) = .error fault ↔
      128 ≤ b.toNat ∧ readSignedFrom (shift + 7) bytes = .error fault := by
  rw [readSignedFrom, if_neg (Nat.not_le.mpr hshift)]
  split
  · rename_i hb
    simp [Nat.not_le.mpr hb]
  · rename_i hb
    split
    · rename_i hread
      simp [hread]
    · rename_i hread
      simp [hread, Nat.le_of_not_lt hb]

/-- A number is cut short if none of the bytes ends it and there is room for all of them. -/
theorem readSignedFrom_eq_truncated_iff (hleft : shift + 7 * left = 70) :
    readSignedFrom shift bytes = .error .truncated ↔
      bytes.length ≤ left ∧ ∀ b ∈ bytes, 128 ≤ b.toNat := by
  induction bytes generalizing shift left with
  | nil => simp
  | cons b bytes ih =>
      cases left with
      | zero => simp [readSignedFrom, show 64 ≤ shift by omega]
      | succ left =>
          rw [readSignedFrom_cons_eq_error_iff (by omega), @ih (shift + 7) left (by omega),
            List.length_cons, List.forall_mem_cons, Nat.succ_le_succ_iff, and_left_comm]

/-- A number is too long if no byte that there is room for ends it and there are more. -/
theorem readSignedFrom_eq_overflow_iff (hleft : shift + 7 * left = 70) :
    readSignedFrom shift bytes = .error .overflow ↔
      left < bytes.length ∧ ∀ b ∈ bytes.take left, 128 ≤ b.toNat := by
  induction bytes generalizing shift left with
  | nil => simp
  | cons b bytes ih =>
      cases left with
      | zero => simp [readSignedFrom, show 64 ≤ shift by omega]
      | succ left =>
          rw [readSignedFrom_cons_eq_error_iff (by omega), @ih (shift + 7) left (by omega),
            List.length_cons, List.take_succ_cons, List.forall_mem_cons, Nat.succ_lt_succ_iff,
            and_left_comm]

/-! ### Numbers of 64 bits -/

theorem StartsWith.groupCount_eq (h : StartsWith bytes groups last rest) :
    groupCount bytes = groups.length + 1 := by
  obtain ⟨rfl, hcontinued, hended⟩ := h
  induction groups with
  | nil => exact groupCount_cons_of_lt hended rest
  | cons b groups ih =>
      obtain ⟨hb, hgroups⟩ := List.forall_mem_cons.mp hcontinued
      rw [List.cons_append, groupCount_cons_of_le hb, ih hgroups, List.length_cons]

/-- A number of up to ten groups fits if it has fewer, or if all bits of the tenth are the sign. -/
theorem StartsWith.fits_iff (h : StartsWith bytes groups last rest) (hlength : groups.length < 10) :
    (-2 ^ 63 ≤ signedValue groups last ∧ signedValue groups last < 2 ^ 63) ↔
      groups.length < 9 ∨ last.toNat = 0 ∨ last.toNat = 127 := by
  have hended := h.ended
  rcases Nat.lt_or_ge groups.length 9 with hshort | hlong
  · obtain ⟨hlow, hhigh⟩ := signedValue_bounds groups hended
    have hpow : (128 : Int) ^ groups.length ≤ 128 ^ 8 := by
      exact_mod_cast Nat.pow_le_pow_right (show 0 < 128 by decide) (Nat.le_of_lt_succ hshort)
    simp only [hshort, true_or, iff_true]
    omega
  · have hnine : groups.length = 9 := by omega
    have hgroups := payload_lt groups
    rw [hnine] at hgroups
    rw [signedValue_eq, signedValue_nil hended, hnine]
    split <;> omega

/-- Cutting a value to 64 bits keeps it if and only if it fits. -/
theorem bmod_word_eq_self_iff (value : Int) :
    value.bmod (2 ^ 64) = value ↔ -2 ^ 63 ≤ value ∧ value < 2 ^ 63 := by
  rw [Int.bmod_eq_iff (by decide)]
  omega

/-- Reading keeps the value of up to ten groups modulo `2 ^ 64`. -/
theorem readSigned_eq_ok_iff : readSigned bytes = .ok (value, rest) ↔ ∃ groups last,
    StartsWith bytes groups last rest ∧ groups.length < 10 ∧
      value = (signedValue groups last).bmod (2 ^ 64) := by
  rw [readSigned_eq]
  exact readSignedFrom_eq_ok_iff (show 0 + 7 * 10 = 70 from rfl)

/-- What reading a signed number makes of bytes. -/
structure ReadsWrapped (bytes : List UInt8) : Prop where
  /-- A number of up to ten groups is read, and nothing behind it. Its value is cut to 64 bits. -/
  ok_iff : ∀ value rest, readSigned bytes = .ok (value, rest) ↔ ∃ groups last,
    StartsWith bytes groups last rest ∧ groups.length < 10 ∧
      value = (signedValue groups last).bmod (2 ^ 64)
  /-- So it is read as its value if and only if that fits into 64 bits. -/
  exact_iff : ∀ groups last rest, StartsWith bytes groups last rest → groups.length < 10 →
    (readSigned bytes = .ok (signedValue groups last, rest) ↔
      -2 ^ 63 ≤ signedValue groups last ∧ signedValue groups last < 2 ^ 63)
  /-- It does unless there are ten groups, the last of which has both kinds of bits. -/
  fits_iff : ∀ groups last rest, StartsWith bytes groups last rest → groups.length < 10 →
    ((-2 ^ 63 ≤ signedValue groups last ∧ signedValue groups last < 2 ^ 63) ↔
      groups.length < 9 ∨ last.toNat = 0 ∨ last.toNat = 127)
  /-- More than ten groups are an overflow, whatever their value. -/
  overflow_iff : readSigned bytes = .error .overflow ↔
    10 < bytes.length ∧ ∀ b ∈ bytes.take 10, 128 ≤ b.toNat
  /-- Fewer, none of which is the last, are cut short. -/
  truncated_iff : readSigned bytes = .error .truncated ↔
    bytes.length ≤ 10 ∧ ∀ b ∈ bytes, 128 ≤ b.toNat
  /-- The loop that reads leaves the slice right behind the number. -/
  advanced : ∀ word left, decodeSigned bytes = .ok word left ↔
    readSigned bytes = .ok (word.toInt, left)
  /-- Whatever the fault, it leaves the slice where it was. -/
  unchanged : ∀ fault left, decodeSigned bytes = .error fault left ↔
    readSigned bytes = .error fault ∧ left = bytes
  /-- A reader moves by as many bytes as there are groups. -/
  consumed : ∀ groups last rest value offset, StartsWith bytes groups last rest →
    readSigned bytes = .ok (value, rest) →
      Read.signed ⟨bytes, offset⟩ = .ok value ⟨rest, offset + (groups.length + 1)⟩
  /-- A reader that cannot read a number reports where it is, and stays there. -/
  reported : ∀ fault offset, readSigned bytes = .error fault →
    Read.signed ⟨bytes, offset⟩ =
      .error (Read.varintError ⟨bytes, offset⟩ fault) ⟨bytes, offset⟩

/-- Whatever the bytes, a signed number of up to ten groups is read as its value modulo `2 ^ 64`. -/
theorem readsWrapped (bytes : List UInt8) : ReadsWrapped bytes := by
  refine ⟨fun value rest => readSigned_eq_ok_iff, fun groups last rest hstarts hlength => ?_,
    fun groups last rest hstarts => hstarts.fits_iff, ?_, ?_,
    fun word left => ?_, fun fault left => ?_, fun groups last rest value offset hstarts hread => ?_,
    fun fault offset hread => ?_⟩
  · rw [← bmod_word_eq_self_iff]
    have hread := readSigned_eq_ok_iff.mpr ⟨groups, last, hstarts, hlength, rfl⟩
    rw [hread, Except.ok.injEq, Prod.mk.injEq, and_iff_left rfl]
  · rw [readSigned_eq]
    exact readSignedFrom_eq_overflow_iff rfl
  · rw [readSigned_eq]
    exact readSignedFrom_eq_truncated_iff rfl
  · rw [readSigned_eq]
    exact decodeSigned_eq_ok_iff
  · rw [readSigned_eq]
    exact decodeSigned_eq_error_iff
  · exact Read.varint_eq_ok_iff.mpr ⟨rest, hread, by rw [hstarts.groupCount_eq]⟩
  · exact Read.varint_eq_error_iff.mpr ⟨fault, hread, rfl, rfl⟩

/-- Nine groups without any bit, and a tenth with the bit above its lowest one: the value is
`2 ^ 64`, and what is read is zero. -/
theorem readSigned_tenth_group :
    StartsWith (List.replicate 9 0x80 ++ [0x02]) (List.replicate 9 0x80) 0x02 [] ∧
      signedValue (List.replicate 9 0x80) 0x02 = 2 ^ 64 ∧
      readSigned (List.replicate 9 0x80 ++ [0x02]) = .ok (0, []) := by
  have hcontinued : ∀ b ∈ List.replicate 9 (0x80 : UInt8), 128 ≤ b.toNat := by
    intro b hb
    rw [List.eq_of_mem_replicate hb]
    decide
  exact ⟨⟨rfl, hcontinued, by decide⟩, by decide, by rfl⟩

end SyntaxPack.Varint
