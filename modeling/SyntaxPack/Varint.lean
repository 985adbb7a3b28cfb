/-!
# SyntaxPack.Varint

Base-128 variable-length integers, least significant group first. Every byte
carries seven bits of the number; its top bit says whether another byte
follows.

* `encodeUnsigned`/`decodeUnsigned` hold natural numbers of up to 64 bits;
* `encodeSigned`/`decodeSigned` hold integers in two's complement, where bit 6 of
  the last byte is the sign.

Writing always picks the shortest form. Reading accepts longer ones, moves a
slice behind the number, and tells an input that stops too early apart from one
whose number has too many bits. `readUnsigned` and `readSigned` are what reading
comes to where the slice is not needed any more.
-/

namespace SyntaxPack.Varint

/-- Why no number could be read. -/
inductive Fault where
  /-- The input ended before a byte without a continuation bit. -/
  | truncated
  /-- The number does not fit into 64 bits. -/
  | overflow
  deriving DecidableEq, Repr, Inhabited

/-- The wording of a fault. -/
def Fault.message : Fault → String
  | truncated => "varint is truncated"
  | overflow => "varint overflows 64 bits"

/-- The number of bytes of the number that starts an input: those with a
continuation bit, and the one after them. -/
def groupCount (bytes : List UInt8) : Nat := (bytes.takeWhile (128 ≤ ·.toNat)).length + 1

/-! ### Unsigned numbers -/

/-- The shortest base-128 form of a number, in at most `more` groups and one. -/
def encodeUnsignedUpTo : Nat → Nat → List UInt8
  | 0, n => [n.toUInt8]
  | more + 1, n =>
    if n < 128 then [n.toUInt8]
    else (n % 128 + 128).toUInt8 :: encodeUnsignedUpTo more (n / 128)

/-- The shortest base-128 form of a natural number. -/
def encodeUnsigned (n : Nat) : List UInt8 := encodeUnsignedUpTo n n

/-- The number of bytes `encodeUnsigned` writes: one per started group of seven
significant bits, and one for zero. -/
def encodedSize (n : Nat) : Nat :=
  if n = 0 then 1 else (n.log2 + 1 + 6) / 7

/-! ### Signed numbers -/

/-- The shortest two's complement base-128 form of an integer, in at most `more`
groups and one. Groups stop once what is left is the sign that bit 6 of the
last group already shows. -/
def encodeSignedUpTo : Nat → Int → List UInt8
  | 0, i => [(i % 128).toNat.toUInt8]
  | more + 1, i =>
    let group := (i % 128).toNat
    if (i / 128 = 0 ∧ group < 64) ∨ (i / 128 = -1 ∧ 64 ≤ group) then [group.toUInt8]
    else (group + 128).toUInt8 :: encodeSignedUpTo more (i / 128)

/-- The shortest two's complement base-128 form of an integer. -/
def encodeSigned (i : Int) : List UInt8 := encodeSignedUpTo i.natAbs i

/-! ### Reading

Numbers are read off the front of a slice by a loop over its bytes, which gathers their groups in a
word of 64 bits. The slice moves only once the last byte of a number is found. -/

/-- A program that reads off the front of a slice. The slice is its state, and it is there after a
fault as well as after a success: wherever the program has moved it by then, there it stays. -/
abbrev Decode (α : Type) := EStateM Fault (List UInt8) α

/-- A word with the group of a byte put in from bit `shift` on. What the word has no room for is
lost. -/
def putGroup (word : UInt64) (shift : Nat) (b : UInt8) : UInt64 :=
  word ||| (b &&& 0x7f).toUInt64 <<< shift.toUInt64

/-- The loop of `decodeUnsigned` over the bytes from `position` on, with the groups in front of them
in `word`. The top group has room for one bit only, and no byte may follow it. -/
def decodeUnsignedFrom (position : Nat) (word : UInt64) (shift : Nat) : List UInt8 → Decode UInt64
  | [] => throw .truncated
  | b :: rest =>
    if shift = 63 ∧ 1 < b &&& 0x7f then throw .overflow
    else if b &&& 0x80 = 0 then do
      modify (·.drop (position + 1))
      return putGroup word shift b
    else if 63 < shift + 7 then throw .overflow
    else decodeUnsignedFrom (position + 1) (putGroup word shift b) (shift + 7) rest

/-- Reads an unsigned number of at most 64 bits off the front of a slice. -/
def decodeUnsigned : Decode UInt64 := do decodeUnsignedFrom 0 0 0 (← get)

/-- The loop of `decodeSigned` over the bytes from `position` on, with the groups in front of them
in `word`. Bit 6 of the last byte goes on above it as the sign. No check looks at what the top
group, which starts at bit 63, has beyond its lowest bit. -/
def decodeSignedFrom (position : Nat) (word : UInt64) (shift : Nat) : List UInt8 → Decode Int64
  | [] => throw .truncated
  | b :: rest =>
    if 64 ≤ shift then throw .overflow
    else if b &&& 0x80 = 0 then do
      modify (·.drop (position + 1))
      let word := putGroup word shift b
      return (if shift + 7 < 64 ∧ b &&& 0x40 ≠ 0 then word ||| (-1) <<< (shift + 7).toUInt64
        else word).toInt64
    else decodeSignedFrom (position + 1) (putGroup word shift b) (shift + 7) rest

/-- Reads a signed number of at most 64 bits off the front of a slice. -/
def decodeSigned : Decode Int64 := do decodeSignedFrom 0 0 0 (← get)

/-- The unsigned number that bytes start with, and the bytes after it. -/
def readUnsigned (bytes : List UInt8) : Except Fault (Nat × List UInt8) :=
  match decodeUnsigned bytes with
  | .ok word rest => .ok (word.toNat, rest)
  | .error fault _ => .error fault

/-- The signed number that bytes start with, and the bytes after it. -/
def readSigned (bytes : List UInt8) : Except Fault (Int × List UInt8) :=
  match decodeSigned bytes with
  | .ok word rest => .ok (word.toInt, rest)
  | .error fault _ => .error fault

/-! ### Unfolding equations -/

/-- Room for more groups than a number has changes nothing. -/
theorem encodeUnsignedUpTo_eq {a b n : Nat} (ha : n ≤ a) (hb : n ≤ b) :
    encodeUnsignedUpTo a n = encodeUnsignedUpTo b n := by
  induction a generalizing b n with
  | zero =>
    obtain rfl : n = 0 := by omega
    cases b <;> simp [encodeUnsignedUpTo]
  | succ a ih =>
    cases b with
    | zero =>
      obtain rfl : n = 0 := by omega
      simp [encodeUnsignedUpTo]
    | succ b =>
      simp only [encodeUnsignedUpTo]
      split
      · rfl
      · rw [ih (b := b) (by omega) (by omega)]

theorem encodeUnsigned_of_lt {n : Nat} (h : n < 128) : encodeUnsigned n = [n.toUInt8] := by
  cases n <;> simp_all [encodeUnsigned, encodeUnsignedUpTo]

theorem encodeUnsigned_of_le {n : Nat} (h : 128 ≤ n) :
    encodeUnsigned n = (n % 128 + 128).toUInt8 :: encodeUnsigned (n / 128) := by
  obtain ⟨m, rfl⟩ : ∃ m, n = m + 1 := ⟨n - 1, by omega⟩
  rw [encodeUnsigned, encodeUnsignedUpTo, if_neg (by omega), encodeUnsigned,
    encodeUnsignedUpTo_eq (a := m) (b := (m + 1) / 128) (by omega) (by omega)]

end SyntaxPack.Varint
