import Mathlib.Algebra.Ring.Nat
import Mathlib.Algebra.Ring.Int.Defs
import Mathlib.Tactic.Ring
import SyntaxPack.Varint
import SyntaxPack.Proofs.Monad
/-!
# SyntaxPack.Proofs.Groups

Base-128 numbers, read group by group.

The loops of `decodeUnsigned` and `decodeSigned` gather groups in a word and move a slice when they
are done. Here the same numbers are read by recursion: the first group, and 128 times what the bytes
behind it stand for (`readUnsignedWithin`, `readSignedFrom`). That is the form to do inductions on,
and it has neither words nor a slice.

Each loop runs as the recursion does (`RunsAs`): it ends with a word for the same number and with
the slice behind it, or with the same fault and the slice where it was. The invariant is that the
word holds the groups read so far, all of them below bit `shift`. So the bits of the next group are
put where there are none, and putting them in is adding them.
-/

namespace SyntaxPack.Varint

/-! ### By recursion

Only what goes wrong is the same in the loops and here. Where a loop asks whether a bit is lost, the
recursion asks whether the number fits into the bits that are left; where a loop moves a slice, the
recursion returns what is behind the number. -/

/-- Reads an unsigned number of at most `bits` bits. A group with a bit beyond
that width, or a continuation past it, is an overflow. -/
def readUnsignedWithin (bits : Nat) : List UInt8 → Except Fault (Nat × List UInt8)
  | [] => .error .truncated
  | b :: rest =>
    let group := b.toNat % 128
    if Nat.pow 2 bits ≤ group then .error .overflow
    else if b.toNat < 128 then .ok (group, rest)
    else if bits ≤ 7 then .error .overflow
    else
      match readUnsignedWithin (bits - 7) rest with
      | .ok (high, rest) => .ok (group + 128 * high, rest)
      | .error fault => .error fault

/-- The value of the last group of a signed number, which starts at bit `shift`.
Below the top of a 64-bit word, bit 6 is the sign; of a group that starts at
bit 63 only that one bit is part of the word, and it is the sign. -/
def lastGroup (shift group : Nat) : Int :=
  if shift + 7 < 64 then
    if group < 64 then group else (group : Int) - 128
  else -((group % 2 : Nat) : Int)

/-- Reads the groups of a signed number from bit `shift` on. -/
def readSignedFrom (shift : Nat) : List UInt8 → Except Fault (Int × List UInt8)
  | [] => .error .truncated
  | b :: rest =>
    if 64 ≤ shift then .error .overflow
    else if b.toNat < 128 then .ok (lastGroup shift b.toNat, rest)
    else
      match readSignedFrom (shift + 7) rest with
      | .ok (high, rest) => .ok (((b.toNat % 128 : Nat) : Int) + 128 * high, rest)
      | .error fault => .error fault

@[simp] theorem readUnsignedWithin_nil (bits : Nat) :
    readUnsignedWithin bits [] = .error .truncated := rfl

@[simp] theorem readSignedFrom_nil (shift : Nat) :
    readSignedFrom shift [] = .error .truncated := rfl

/-- Beyond the word no number is read, whatever follows. -/
theorem readSignedFrom_ne_ok {shift : Nat} (h : 64 ≤ shift) (bytes : List UInt8)
    (result : Int × List UInt8) : readSignedFrom shift bytes ≠ .ok result := by
  cases bytes with
  | nil => simp
  | cons b bytes => simp [readSignedFrom, h]

/-! ### Where numbers end

A number ends with the first byte that has no continuation bit, and this byte is found without
reading the number. -/

theorem groupCount_cons_of_lt {b : UInt8} (h : b.toNat < 128) (bytes : List UInt8) :
    groupCount (b :: bytes) = 1 := by
  have : ¬ 128 ≤ b.toNat := by omega
  simp [groupCount, this]

theorem groupCount_cons_of_le {b : UInt8} (h : 128 ≤ b.toNat) (bytes : List UInt8) :
    groupCount (b :: bytes) = groupCount bytes + 1 := by
  simp [groupCount, h]

/-- What follows an unsigned number starts after its groups, which end within the bytes that are
there. -/
theorem readUnsignedWithin_rest {bits value : Nat} {bytes rest : List UInt8}
    (h : readUnsignedWithin bits bytes = .ok (value, rest)) :
    groupCount bytes ≤ bytes.length ∧ rest = bytes.drop (groupCount bytes) := by
  induction bytes generalizing bits value with
  | nil => simp at h
  | cons b bytes ih =>
      simp only [readUnsignedWithin] at h
      split at h
      · simp at h
      · rcases Nat.lt_or_ge b.toNat 128 with hb | hb
        · rw [if_pos hb] at h
          simp only [Except.ok.injEq, Prod.mk.injEq] at h
          simp [groupCount_cons_of_lt hb, h.2]
        · rw [if_neg (Nat.not_lt.mpr hb)] at h
          split at h
          · simp at h
          · split at h
            · rename_i high tail hread
              simp only [Except.ok.injEq, Prod.mk.injEq] at h
              obtain ⟨hcount, hrest⟩ := ih (h.2 ▸ hread)
              rw [groupCount_cons_of_le hb, List.length_cons, List.drop_succ_cons]
              exact ⟨Nat.succ_le_succ hcount, hrest⟩
            · simp at h

/-- What follows a signed number starts after its groups, which end within the
bytes that are there. -/
theorem readSignedFrom_rest {shift : Nat} {value : Int} {bytes rest : List UInt8}
    (h : readSignedFrom shift bytes = .ok (value, rest)) :
    groupCount bytes ≤ bytes.length ∧ rest = bytes.drop (groupCount bytes) := by
  induction bytes generalizing shift value with
  | nil => simp at h
  | cons b bytes ih =>
      simp only [readSignedFrom] at h
      split at h
      · simp at h
      · rcases Nat.lt_or_ge b.toNat 128 with hb | hb
        · rw [if_pos hb] at h
          simp only [Except.ok.injEq, Prod.mk.injEq] at h
          simp [groupCount_cons_of_lt hb, h.2]
        · rw [if_neg (Nat.not_lt.mpr hb)] at h
          split at h
          · rename_i high tail hread
            simp only [Except.ok.injEq, Prod.mk.injEq] at h
            obtain ⟨hcount, hrest⟩ := ih (h.2 ▸ hread)
            rw [groupCount_cons_of_le hb, List.length_cons, List.drop_succ_cons]
            exact ⟨Nat.succ_le_succ hcount, hrest⟩
          · simp at h

/-! ### Bits

A word with all its bits below `shift` is the sum of its groups. These lemmas say so for what the
loops do with it: a group is put in above, and so are the ones that a negative sign stands for. -/

section Bits

variable {b : UInt8} {word mask : UInt64} {shift : Nat}

theorem toNat_toUInt64 {n : Nat} (h : n < 2 ^ 64) : n.toUInt64.toNat = n := by
  rw [Nat.toUInt64, UInt64.toNat_ofNat']
  exact Nat.mod_eq_of_lt h

/-- The group of a byte is what is left of it without the continuation bit. -/
theorem toNat_group (b : UInt8) : (b &&& 0x7f).toNat = b.toNat % 128 := by
  rw [UInt8.toNat_and]
  exact Nat.and_two_pow_sub_one_eq_mod b.toNat 7

/-- A byte without the continuation bit is a group by itself. -/
theorem and_continuation_eq_zero_iff (b : UInt8) : b &&& 0x80 = 0 ↔ b.toNat < 128 := by
  have hall : ∀ n : Fin 256, (n.val &&& 0x80 = 0 ↔ n.val < 128) := by decide +kernel
  rw [← UInt8.toNat_inj, UInt8.toNat_and]
  exact hall ⟨b.toNat, b.toNat_lt⟩

theorem and_sign_eq_zero_iff (hb : b.toNat < 128) : b &&& 0x40 = 0 ↔ b.toNat < 64 := by
  have hall : ∀ n : Fin 128, (n.val &&& 0x40 = 0 ↔ n.val < 64) := by decide +kernel
  rw [← UInt8.toNat_inj, UInt8.toNat_and]
  exact hall ⟨b.toNat, hb⟩

theorem two_pow_word (hshift : shift < 64) : 2 ^ 64 = 2 ^ shift * 2 ^ (64 - shift) := by
  rw [← Nat.pow_add]
  congr 1
  omega

/-- Bits that are put in above those of a word are added to it, as many as there is room for. -/
theorem toNat_or_shiftLeft (hword : word.toNat < 2 ^ shift) (hshift : shift < 64) :
    (word ||| mask <<< shift.toUInt64).toNat =
      word.toNat + 2 ^ shift * (mask.toNat % 2 ^ (64 - shift)) := by
  rw [UInt64.toNat_or, UInt64.toNat_shiftLeft, toNat_toUInt64 (by omega), Nat.mod_eq_of_lt hshift,
    Nat.shiftLeft_eq, Nat.mul_comm, two_pow_word hshift, Nat.mul_mod_mul_left, Nat.or_comm,
    ← Nat.two_pow_add_eq_or_of_lt hword, Nat.add_comm]

/-- Of a group that is put in, those bits are added that there is room for. -/
theorem toNat_putGroup (hword : word.toNat < 2 ^ shift) (hshift : shift < 64) (b : UInt8) :
    (putGroup word shift b).toNat =
      word.toNat + 2 ^ shift * (b.toNat % 128 % 2 ^ (64 - shift)) := by
  rw [putGroup, toNat_or_shiftLeft hword hshift, UInt8.toNat_toUInt64, toNat_group]

/-- A group that there is room for is kept as it is. -/
theorem toNat_putGroup_of_lt (hword : word.toNat < 2 ^ shift) (hshift : shift < 64)
    (hroom : b.toNat % 128 < 2 ^ (64 - shift)) :
    (putGroup word shift b).toNat = word.toNat + 2 ^ shift * (b.toNat % 128) := by
  rw [toNat_putGroup hword hshift, Nat.mod_eq_of_lt hroom]

/-- With a group put in, a word holds what is below the next one. -/
theorem toNat_putGroup_lt (hword : word.toNat < 2 ^ shift) (hshift : shift < 64) (b : UInt8) :
    (putGroup word shift b).toNat < 2 ^ (shift + 7) := by
  have hpow : 2 ^ (shift + 7) = 2 ^ shift * 128 := Nat.pow_add 2 shift 7
  have hmod := Nat.mod_le (b.toNat % 128) (2 ^ (64 - shift))
  have hmul : 2 ^ shift * (b.toNat % 128 % 2 ^ (64 - shift)) ≤ 2 ^ shift * 127 :=
    Nat.mul_le_mul_left _ (by omega)
  rw [toNat_putGroup hword hshift, hpow]
  omega

/-- Below the top group there is room for all bits of one. -/
theorem group_lt_of_le (b : UInt8) (hshift : shift ≤ 56) : b.toNat % 128 < 2 ^ (64 - shift) := by
  have hpow : 2 ^ 8 ≤ 2 ^ (64 - shift) := Nat.pow_le_pow_right (by decide) (by omega)
  omega

/-- Ones above the bits of a word take it to the top of the range. -/
theorem toNat_or_ones (hword : word.toNat < 2 ^ shift) (hshift : shift < 64) :
    (word ||| (-1) <<< shift.toUInt64).toNat = word.toNat + (2 ^ 64 - 2 ^ shift) := by
  have hpow := two_pow_word hshift
  have hhigh := Nat.two_pow_pos (64 - shift)
  have hle := Nat.le_mul_of_pos_left (2 ^ (64 - shift)) (Nat.two_pow_pos shift)
  rw [← hpow] at hle
  have hones : (-1 : UInt64).toNat = 2 ^ (64 - shift) * (2 ^ shift - 1) + (2 ^ (64 - shift) - 1) := by
    rw [Nat.mul_sub, Nat.mul_one, Nat.mul_comm, ← hpow]
    change 2 ^ 64 - 1 = _
    omega
  have hlt : 2 ^ (64 - shift) - 1 < 2 ^ (64 - shift) := Nat.sub_one_lt hhigh.ne'
  rw [toNat_or_shiftLeft hword hshift, hones, Nat.mul_add_mod, Nat.mod_eq_of_lt hlt, Nat.mul_sub,
    ← hpow, Nat.mul_one]

/-- A word with its top bit set stands for a negative integer. -/
theorem toInt_toInt64 (word : UInt64) : word.toInt64.toInt =
    if word.toNat < 2 ^ 63 then (word.toNat : Int) else (word.toNat : Int) - 2 ^ 64 := by
  change word.toBitVec.toInt = _
  rw [BitVec.toInt_eq_toNat_cond]
  change (if 2 * word.toNat < 2 ^ 64 then (word.toNat : Int)
    else (word.toNat : Int) - (2 ^ 64 : Nat)) = _
  split <;> split <;> omega

/-- The word of a signed number stands for its groups, the last of which has the sign. -/
theorem toInt_lastWord (hword : word.toNat < 2 ^ shift) (hshift : shift < 64)
    (hgroups : shift % 7 = 0) (hlast : b.toNat < 128) :
    (if shift + 7 < 64 ∧ b &&& 0x40 ≠ 0 then
      putGroup word shift b ||| (-1) <<< (shift + 7).toUInt64
    else putGroup word shift b).toInt64.toInt = word.toNat + 2 ^ shift * lastGroup shift b.toNat := by
  have hgroup : b.toNat % 128 = b.toNat := Nat.mod_eq_of_lt hlast
  by_cases htop : shift = 63
  · -- Of the top group only the lowest bit is left, and it is the sign.
    subst htop
    have hnone : ¬ 63 + 7 < 64 := by decide
    have hput := toNat_putGroup hword hshift b
    rw [hgroup] at hput
    rw [if_neg fun h => hnone h.1, toInt_toInt64, hput, lastGroup, if_neg hnone]
    split <;> omega
  · have hput := toNat_putGroup_of_lt hword hshift (group_lt_of_le b (by omega))
    have hbelow := toNat_putGroup_lt hword hshift b
    have hhalf : 2 ^ (shift + 7) ≤ 2 ^ 63 := Nat.pow_le_pow_right (by decide) (by omega)
    have hbits : shift + 7 < 64 := by omega
    rw [hgroup] at hput
    rw [lastGroup, if_pos hbits]
    by_cases hsign : b.toNat < 64
    · rw [if_neg fun h => h.2 ((and_sign_eq_zero_iff hlast).mpr hsign), toInt_toInt64,
        if_pos (by omega), if_pos hsign, hput]
      push_cast
      rfl
    · -- The ones above the group take away its weight once more, as two's complement does.
      have hweight : (2 : Int) ^ shift * ((b.toNat : Int) - 128) =
          ((2 ^ shift * b.toNat : Nat) : Int) - ((2 ^ (shift + 7) : Nat) : Int) := by
        push_cast
        ring
      rw [if_pos ⟨hbits, mt (and_sign_eq_zero_iff hlast).mp hsign⟩, toInt_toInt64,
        toNat_or_ones hbelow hbits, if_neg (by omega), if_neg hsign, hput, hweight]
      omega

end Bits

/-! ### Runs of the loops

The state of a loop is its position, its word and its shift. What holds of them whenever a byte is
looked at: the slice from the position on is what is left of the bytes, the word is below bit
`shift`, and `shift` is a multiple of seven. The slice itself is the state of the program, and
`RunsAs` says what has become of it in either outcome. -/

/-- A run on a slice ends as reading by recursion does: with an answer for the same number in front
of the same bytes, or with the same fault and the slice where it was. -/
inductive RunsAs {α β : Type} (slice : List UInt8) (holds : α → β → Prop) :
    EStateM.Result Fault (List UInt8) α → Except Fault (β × List UInt8) → Prop
  | ok {answer : α} {number : β} {rest : List UInt8} (h : holds answer number) :
      RunsAs slice holds (.ok answer rest) (.ok (number, rest))
  | error {fault : Fault} : RunsAs slice holds (.error fault slice) (.error fault)

section RunsAs

variable {α β : Type} {slice : List UInt8} {holds : α → β → Prop}
  {result : EStateM.Result Fault (List UInt8) α} {outcome : Except Fault (β × List UInt8)}

/-- A run reads a number as part of another one: it runs as reading that one does, if reading it ends
with the same bytes left or with the same fault, and the answer holds for it as well. -/
theorem RunsAs.map {γ : Type} {holds' : α → γ → Prop} {outcome' : Except Fault (γ × List UInt8)}
    (h : RunsAs slice holds result outcome)
    (hok : ∀ number rest, outcome = .ok (number, rest) → ∃ number',
      outcome' = .ok (number', rest) ∧ ∀ answer, holds answer number → holds' answer number')
    (herror : ∀ fault, outcome = .error fault → outcome' = .error fault) :
    RunsAs slice holds' result outcome' := by
  cases h with
  | ok hholds =>
      obtain ⟨number', houtcome, himp⟩ := hok _ _ rfl
      rw [houtcome]
      exact .ok (himp _ hholds)
  | error =>
      rw [herror _ rfl]
      exact .error

/-- Where an answer has one number, a run succeeds if and only if reading does. -/
theorem RunsAs.ok_iff {f : α → β} (hf : f.Injective)
    (h : RunsAs slice (fun answer number => f answer = number) result outcome) {answer : α}
    {rest : List UInt8} : result = .ok answer rest ↔ outcome = .ok (f answer, rest) := by
  cases h with
  | @ok found number tail hholds =>
      rw [EStateM.Result.ok.injEq, Except.ok.injEq, Prod.mk.injEq, ← hholds, hf.eq_iff]
  | error => simp

/-- A run fails if and only if reading does, and then it has left the slice where it was. -/
theorem RunsAs.error_iff (h : RunsAs slice holds result outcome) {fault : Fault}
    {left : List UInt8} : result = .error fault left ↔ outcome = .error fault ∧ left = slice := by
  cases h with
  | ok hholds => simp
  | error => simp [eq_comm]

end RunsAs

section Loops

variable {b : UInt8} {word : UInt64} {position shift : Nat} {slice bytes left rest : List UInt8}
  {fault : Fault}

theorem drop_succ_of_drop (h : slice.drop position = b :: rest) :
    slice.drop (position + 1) = rest := by
  rw [← List.drop_drop, h, List.drop_one, List.tail_cons]

/-- A group is refused if and only if it has a bit that there is no room for. -/
theorem refused_iff (b : UInt8) (hshift : shift ≤ 63) (hgroups : shift % 7 = 0) :
    (shift = 63 ∧ 1 < b &&& 0x7f) ↔ Nat.pow 2 (64 - shift) ≤ b.toNat % 128 := by
  rw [UInt8.lt_iff_toNat_lt, toNat_group]
  by_cases htop : shift = 63
  · subst htop
    exact and_iff_right rfl
  · have hroom : ¬ Nat.pow 2 (64 - shift) ≤ b.toNat % 128 :=
      Nat.not_le.mpr (group_lt_of_le b (by omega))
    exact iff_of_false (fun h => htop h.1) hroom

/-- The loop of `decodeUnsigned`, in whatever state it is: what it goes on to read is shifted to
where the next group goes. Induction on the bytes that are left. -/
theorem decodeUnsignedFrom_runsAs (hslice : slice.drop position = bytes)
    (hword : word.toNat < 2 ^ shift) (hshift : shift ≤ 63) (hgroups : shift % 7 = 0) :
    RunsAs slice (fun answer n => answer.toNat = word.toNat + 2 ^ shift * n)
      (decodeUnsignedFrom position word shift bytes slice)
      (readUnsignedWithin (64 - shift) bytes) := by
  induction bytes generalizing position word shift with
  | nil => exact .error
  | cons b bytes ih =>
      have hrest := drop_succ_of_drop hslice
      have hrefused := refused_iff b hshift hgroups
      rw [decodeUnsignedFrom, readUnsignedWithin]
      by_cases hover : shift = 63 ∧ 1 < b &&& 0x7f
      -- The group has a bit beyond the word: the loop refuses it, and the recursion finds it too
      -- large.
      · rw [if_pos hover, if_pos (hrefused.mp hover)]
        exact .error
      · have hput := toNat_putGroup_of_lt hword (by omega)
          (Nat.lt_of_not_le (mt hrefused.mpr hover))
        rw [if_neg hover, if_neg (mt hrefused.mpr hover)]
        by_cases hlast : b.toNat < 128
        · rw [if_pos ((and_continuation_eq_zero_iff b).mpr hlast), if_pos hlast,
            run_bind_of_ok run_modify, hrest]
          exact .ok hput
        · rw [if_neg (mt (and_continuation_eq_zero_iff b).mp hlast), if_neg hlast]
          -- Another group is announced, but this one was the last that there is room for.
          by_cases hend : 63 < shift + 7
          · rw [if_pos hend, if_pos (by omega)]
            exact .error
          · have hruns := ih hrest (toNat_putGroup_lt hword (by omega) b) (by omega) (by omega)
            rw [show 64 - (shift + 7) = 64 - shift - 7 by omega] at hruns
            rw [if_neg hend, if_neg (by omega)]
            refine hruns.map (fun high rest hread => ⟨b.toNat % 128 + 128 * high, ?_, ?_⟩) ?_
            · simp only [hread]
            · intro answer hholds
              rw [hholds, hput]
              ring
            · intro fault hread
              simp only [hread]

/-- The loop of `decodeSigned`, likewise. Its word is that of a negative number only after the last
group, so the groups in front of it count as they do in an unsigned number. -/
theorem decodeSignedFrom_runsAs (hslice : slice.drop position = bytes)
    (hword : word.toNat < 2 ^ shift) (hgroups : shift % 7 = 0) :
    RunsAs slice (fun (answer : Int64) (i : Int) => answer.toInt = word.toNat + 2 ^ shift * i)
      (decodeSignedFrom position word shift bytes slice) (readSignedFrom shift bytes) := by
  induction bytes generalizing position word shift with
  | nil => exact .error
  | cons b bytes ih =>
      have hrest := drop_succ_of_drop hslice
      simp only [decodeSignedFrom, readSignedFrom]
      by_cases hover : 64 ≤ shift
      · rw [if_pos hover, if_pos hover]
        exact .error
      · rw [if_neg hover, if_neg hover]
        by_cases hlast : b.toNat < 128
        · rw [if_pos ((and_continuation_eq_zero_iff b).mpr hlast), if_pos hlast,
            run_bind_of_ok run_modify, hrest]
          exact .ok (toInt_lastWord hword (by omega) hgroups hlast)
        · rw [if_neg (mt (and_continuation_eq_zero_iff b).mp hlast), if_neg hlast]
          have hruns := ih hrest (toNat_putGroup_lt hword (by omega) b) (by omega)
          refine hruns.map (fun high rest hread => ⟨b.toNat % 128 + 128 * high, ?_, ?_⟩) ?_
          · simp only [hread]
            push_cast
            rfl
          · -- A group follows, so this one is not the top one, and none of its bits is lost.
            have hbelow : ¬ 64 ≤ shift + 7 := fun h => readSignedFrom_ne_ok h bytes _ hread
            have hput := toNat_putGroup_of_lt hword (by omega) (group_lt_of_le b (by omega))
            intro answer hholds
            rw [hholds, hput]
            push_cast
            ring
          · intro fault hread
            simp only [hread]

theorem decodeUnsigned_runsAs (bytes : List UInt8) :
    RunsAs bytes (fun word n => word.toNat = n) (decodeUnsigned bytes)
      (readUnsignedWithin 64 bytes) := by
  have h := @decodeUnsignedFrom_runsAs 0 0 0 bytes bytes rfl (by decide) (by decide) rfl
  rw [decodeUnsigned, run_bind_of_ok run_get]
  simpa using h

theorem decodeSigned_runsAs (bytes : List UInt8) :
    RunsAs bytes (fun word i => word.toInt = i) (decodeSigned bytes) (readSignedFrom 0 bytes) := by
  have h := @decodeSignedFrom_runsAs 0 0 0 bytes bytes rfl (by decide) rfl
  rw [decodeSigned, run_bind_of_ok run_get]
  simpa using h

/-! ### Numbers of 64 bits

The loops start with an empty word at the first byte. From here on the recursion stands for them,
and the slice after a fault is the one that was there. -/

/-- What is read of a number is the word of the loop, without the slice. -/
theorem readUnsigned_eq (bytes : List UInt8) : readUnsigned bytes = readUnsignedWithin 64 bytes := by
  have h := decodeUnsigned_runsAs bytes
  rw [readUnsigned]
  generalize decodeUnsigned bytes = result at h ⊢
  generalize readUnsignedWithin 64 bytes = outcome at h ⊢
  cases h with
  | ok hholds => rw [← hholds]
  | error => rfl

theorem readSigned_eq (bytes : List UInt8) : readSigned bytes = readSignedFrom 0 bytes := by
  have h := decodeSigned_runsAs bytes
  rw [readSigned]
  generalize decodeSigned bytes = result at h ⊢
  generalize readSignedFrom 0 bytes = outcome at h ⊢
  cases h with
  | ok hholds => rw [← hholds]
  | error => rfl

theorem decodeUnsigned_eq_ok_iff {word : UInt64} : decodeUnsigned bytes = .ok word rest ↔
    readUnsignedWithin 64 bytes = .ok (word.toNat, rest) :=
  (decodeUnsigned_runsAs bytes).ok_iff fun _ _ => UInt64.toNat_inj.mp

theorem decodeUnsigned_eq_error_iff : decodeUnsigned bytes = .error fault left ↔
    readUnsignedWithin 64 bytes = .error fault ∧ left = bytes :=
  (decodeUnsigned_runsAs bytes).error_iff

theorem decodeSigned_eq_ok_iff {word : Int64} : decodeSigned bytes = .ok word rest ↔
    readSignedFrom 0 bytes = .ok (word.toInt, rest) :=
  (decodeSigned_runsAs bytes).ok_iff fun _ _ => Int64.toInt_inj.mp

theorem decodeSigned_eq_error_iff : decodeSigned bytes = .error fault left ↔
    readSignedFrom 0 bytes = .error fault ∧ left = bytes :=
  (decodeSigned_runsAs bytes).error_iff

theorem readUnsigned_rest {value : Nat} (h : readUnsigned bytes = .ok (value, rest)) :
    groupCount bytes ≤ bytes.length ∧ rest = bytes.drop (groupCount bytes) :=
  readUnsignedWithin_rest (readUnsigned_eq bytes ▸ h)

theorem readSigned_rest {value : Int} (h : readSigned bytes = .ok (value, rest)) :
    groupCount bytes ≤ bytes.length ∧ rest = bytes.drop (groupCount bytes) :=
  readSignedFrom_rest (readSigned_eq bytes ▸ h)

end Loops

end SyntaxPack.Varint
