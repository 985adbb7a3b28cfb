/-!
# SyntaxPack.IndexEncoding

How table indices, tag tokens and integer payloads are laid out, and the flags
that record a module's layout in its header.
-/

namespace SyntaxPack

/-- The width of table indices and tag tokens. -/
inductive IndexEncoding where
  /-- Base-128 numbers: unsigned for indices, signed for integers. -/
  | varint
  /-- Four bytes, least significant first. -/
  | fixed32
  /-- Three bytes, least significant first; integers keep four. -/
  | fixed24
  deriving DecidableEq, Repr, Inhabited

namespace IndexEncoding

/-- All index encodings. -/
def all : List IndexEncoding := [varint, fixed32, fixed24]

/-- The byte that stands for an index encoding in the header. -/
def toByte : IndexEncoding → UInt8
  | varint => 0
  | fixed32 => 1
  | fixed24 => 2

/-- The index encoding of a header byte. -/
def ofByte? : UInt8 → Option IndexEncoding
  | 0 => some varint
  | 1 => some fixed32
  | 2 => some fixed24
  | _ => none

/-- The name of an index encoding in configurations and summaries. -/
def name : IndexEncoding → String
  | varint => "varint"
  | fixed32 => "fixed32"
  | fixed24 => "fixed24"

/-- The index encoding of a name. -/
def ofName? (name : String) : Option IndexEncoding := all.find? (·.name = name)

/-- The largest token that an encoding can carry. -/
def maxToken : IndexEncoding → Nat
  | varint | fixed32 => 0xffffffff
  | fixed24 => 0xffffff

/-- The width of tokens in words. -/
def width : IndexEncoding → String
  | varint | fixed32 => "32-bit"
  | fixed24 => "24-bit"

@[simp] theorem ofByte?_toByte (e : IndexEncoding) : ofByte? e.toByte = some e := by
  cases e <;> rfl

theorem maxToken_lt (e : IndexEncoding) : e.maxToken < UInt32.size := by
  cases e <;> decide

end IndexEncoding

/-- The layout of a module, as its header records it. -/
structure WireFormat where
  /-- The width of indices and tag tokens. -/
  indexEncoding : IndexEncoding
  /-- One object table per shape instead of a single shared one. -/
  partitionedTables : Bool
  /-- One byte stream per tag instead of one stream per section. -/
  valueStreams : Bool
  /-- Every object slot starts with a marker, so that objects can stand in it. -/
  inlineObjects : Bool
  deriving DecidableEq, Repr, Inhabited

namespace WireFormat

/-- The flag byte of the header: one bit per switch, from the lowest on. -/
def flags (wire : WireFormat) : UInt8 :=
  (if wire.partitionedTables then 1 else 0) + (if wire.valueStreams then 2 else 0) +
    (if wire.inlineObjects then 4 else 0)

/-- The layout of an index encoding and a flag byte, none if the byte has a bit
beyond the three switches. -/
def ofFlags? (indexEncoding : IndexEncoding) (flags : UInt8) : Option WireFormat :=
  if flags.toNat < 8 then
    some ⟨indexEncoding, flags.toNat % 2 = 1, flags.toNat / 2 % 2 = 1, flags.toNat / 4 = 1⟩
  else none

@[simp] theorem ofFlags?_flags (wire : WireFormat) :
    ofFlags? wire.indexEncoding wire.flags = some wire := by
  rcases wire with ⟨_ | _ | _, _ | _, _ | _, _ | _⟩ <;> decide

end WireFormat

end SyntaxPack
