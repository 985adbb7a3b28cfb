import SyntaxPack.Bytes.Fixed
import SyntaxPack.Double.Basic
import SyntaxPack.Error
import SyntaxPack.Varint
/-!
# SyntaxPack.Bytes.Reader

Reading items off the front of a byte sequence.

A reader holds the bytes that are unread and where they start in the module, so
that an error inside a substream still names the right place. A `Read` returns
an item or a `DecodeError`, and in both cases the reader it leaves: a failing
read of one item leaves the reader as it was, and a failing read of a text or a
substream leaves it after the parts that could be read.
-/

namespace SyntaxPack

/-- The unread bytes of a module or a substream. -/
structure Reader where
  /-- The bytes that are unread. -/
  unread : List UInt8
  /-- Where they start, counted from the start of the module. -/
  offset : Nat := 0
  deriving DecidableEq, Repr, Inhabited

/-- Reads an item off the front of a reader. -/
abbrev Read (α : Type) := EStateM DecodeError Reader α

namespace Reader

/-- A reader over a whole input. -/
def ofBytes (bytes : List UInt8) : Reader := ⟨bytes, 0⟩

/-- The number of unread bytes. -/
def remaining (r : Reader) : Nat := r.unread.length

/-- Whether every byte has been read. -/
def isAtEnd (r : Reader) : Bool := r.unread.isEmpty

/-- Fails unless every byte has been read. -/
def expectEnd (r : Reader) (label : String) : Except DecodeError Unit :=
  if r.isAtEnd then .ok () else .error (.trailingBytes label r.offset r.remaining)

/-- The error of a read that needs `needed` bytes. -/
def tooShort (r : Reader) (needed : Nat) : DecodeError :=
  .unexpectedEnd r.offset needed r.remaining

end Reader

namespace Bytes

/-- Splits exactly `n` bytes off the front, none if there are fewer. -/
def splitFront : Nat → List UInt8 → Option (List UInt8 × List UInt8)
  | 0, bytes => some ([], bytes)
  | _ + 1, [] => none
  | n + 1, b :: bytes => (splitFront n bytes).map fun (front, rest) => (b :: front, rest)

/-- A split cuts the bytes in two without loss. -/
theorem splitFront_eq_some_iff {n : Nat} {bytes front rest : List UInt8} :
    splitFront n bytes = some (front, rest) ↔ bytes = front ++ rest ∧ front.length = n := by
  induction n generalizing bytes front with
  | zero =>
    simp only [splitFront, Option.some.injEq, Prod.mk.injEq, List.length_eq_zero_iff]
    constructor
    · rintro ⟨rfl, rfl⟩; simp
    · rintro ⟨rfl, rfl⟩; simp
  | succ n ih =>
    cases bytes with
    | nil =>
      simp only [splitFront, reduceCtorEq, false_iff]
      rintro ⟨h, hl⟩
      have := congrArg List.length h
      simp only [List.length_nil, List.length_append] at this
      omega
    | cons b bytes =>
      simp only [splitFront, Option.map_eq_some_iff, Prod.exists, Prod.mk.injEq]
      constructor
      · rintro ⟨f, r, h, rfl, rfl⟩
        obtain ⟨rfl, hl⟩ := ih.1 h
        exact ⟨rfl, by simp [hl]⟩
      · rintro ⟨h, hl⟩
        cases front with
        | nil => simp at hl
        | cons c front =>
          simp only [List.cons_append, List.cons.injEq] at h
          obtain ⟨rfl, rfl⟩ := h
          exact ⟨front, rest, ih.2 ⟨rfl, by simpa using hl⟩, rfl, rfl⟩

end Bytes

namespace Read

/-- Where the next unread byte is. -/
def offset : Read Nat := fun r => .ok r.offset r

/-- Fails with an error. -/
def fail {α : Type} (error : DecodeError) : Read α := fun r => .error error r

/-- The next `n` bytes. -/
def bytes (n : Nat) : Read (List UInt8) := fun r =>
  match Bytes.splitFront n r.unread with
  | some (front, rest) => .ok front ⟨rest, r.offset + n⟩
  | none => .error (r.tooShort n) r

/-- The next `width` bytes as a number, least significant first. -/
def fixed (width : Nat) : Read Nat := return Bytes.number (← bytes width)

/-- A byte. -/
def byte : Read UInt8 := return (← fixed 1).toUInt8

/-- A number of 24 bits. -/
def nat24 : Read Nat := fixed 3

/-- A number of 32 bits. -/
def nat32 : Read Nat := fixed 4

/-- An integer of 32 bits. -/
def int32 : Read Int := return Bytes.asSigned (← fixed 4)

/-- A double. -/
def double : Read Double := return ⟨(← fixed 8).toUInt64⟩

/-- The error for a base-128 number that cannot be read. One that is cut off
would need one byte more than there are. -/
def varintError (r : Reader) : Varint.Fault → DecodeError
  | .truncated => r.tooShort (r.remaining + 1)
  | .overflow => .malformedVarint r.offset

/-- A base-128 number in the form that `read` knows. -/
def varint {α : Type} (read : List UInt8 → Except Varint.Fault (α × List UInt8)) : Read α :=
  fun r =>
  match read r.unread with
  | .ok (value, rest) => .ok value ⟨rest, r.offset + Varint.groupCount r.unread⟩
  | .error fault => .error (varintError r fault) r

/-- An unsigned base-128 number. -/
def unsigned : Read Nat := varint Varint.readUnsigned

/-- A signed base-128 number. -/
def signed : Read Int := varint Varint.readSigned

/-- A text: the number of its bytes, then its bytes in UTF-8. Malformed text is
rejected, never repaired. -/
def text : Read String := do
  let length ← unsigned
  let start ← offset
  let bytes ← bytes length
  match Utf8.decode bytes with
  | .ok s => pure s
  | .error fault => fail (.invalidUtf8 (start + fault.validUpTo) fault)

/-- A substream: its length, its bytes, and its length again. The result reads
the bytes in between. -/
def substream : Read Reader := do
  let start ← offset
  let header ← nat32
  let origin ← offset
  let body ← bytes header
  let footer ← nat32
  if header ≠ footer then fail (.substreamLengthMismatch start header footer)
  pure ⟨body, origin⟩

/-- Runs a read, as often as a count says, from the first item to the last. -/
def replicate {α : Type} (count : Nat) (read : Read α) : Read (List α) :=
  go count []
where
  /-- Collects the items in reverse. -/
  go : Nat → List α → Read (List α)
    | 0, items => pure items.reverse
    | count + 1, items => do go count ((← read) :: items)

end Read

namespace IndexEncoding

/-- A token. As a base-128 number it must still fit into 32 bits. -/
def readToken : IndexEncoding → Read Nat
  | varint => do
    let start ← Read.offset
    let value ← Read.unsigned
    if UInt32.size ≤ value then Read.fail (.malformedVarint start)
    pure value
  | fixed32 => Read.nat32
  | fixed24 => Read.nat24

/-- An index as it is. -/
def readIndex (e : IndexEncoding) : Read Nat := e.readToken

/-- A reference: zero is none, every other token one more than an index. -/
def readReference (e : IndexEncoding) : Read (Option Nat) := do
  match ← e.readToken with
  | 0 => pure none
  | index + 1 => pure (some index)

/-- A 32-bit integer. -/
def readInteger : IndexEncoding → Read Int
  | varint => do
    let start ← Read.offset
    let value ← Read.signed
    unless Double.isPayload value do Read.fail (.integerOutOfRange start)
    pure value
  | fixed32 | fixed24 => Read.int32

end IndexEncoding

end SyntaxPack
