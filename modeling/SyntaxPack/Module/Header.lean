import SyntaxPack.Bytes.Reader
import SyntaxPack.Utf8
/-!
# SyntaxPack.Module.Header

The header of a module and its directory.

Every module starts with the signature bytes and the name of the format. The
version is part of the name; any change of the layout changes it. A module is laid
out in this order:

* the signature, the format name, and the two bytes of the `WireFormat`;
* the directory: the number of entries of each table, in 32 bits each;
* the tags, the strings, the value streams if there are any, the object tables,
  the arrays and the root value, each as a substream.

The directory tells how many entries every table has. Its counts are not
trusted: `Module.decode` checks each against the section it belongs to, and the
number of object tables must fit into the bytes that are left.
-/

namespace SyntaxPack

namespace Module

/-- The signature: a byte outside ASCII, a word, and the ends of lines and files
that careless copying would change. -/
def magic : List UInt8 :=
  [0x89, 0x57, 0x65, 0x62, 0x41, 0x53, 0x4D, 0x0D, 0x0A, 0x1A, 0x0A]

/-- The name of the format. -/
def formatName : String := "hyast-module/1"

/-! ### Reading -/

/-- The signature. Whatever stands in its place, the bytes are no module. -/
def readMagic : Read Unit := fun r =>
  match Bytes.splitFront magic.length r.unread with
  | some (front, rest) =>
    if front = magic then .ok () ⟨rest, r.offset + magic.length⟩
    else .error .badMagic ⟨rest, r.offset + magic.length⟩
  | none => .error .badMagic r

/-- The layout: the index encoding and the flags. -/
def readLayout : Read WireFormat := do
  let byte ← Read.byte
  match IndexEncoding.ofByte? byte with
  | none => Read.fail (.unknownIndexEncoding byte)
  | some indexEncoding =>
    let flags ← Read.byte
    match WireFormat.ofFlags? indexEncoding flags with
    | none => Read.fail (.unknownFlags flags)
    | some wire => pure wire

/-- The signature, the format name and the layout. -/
def readHeader : Read WireFormat := do
  readMagic
  let name ← Read.text
  if name ≠ formatName then Read.fail (.formatMismatch formatName name)
  readLayout

/-- The object tables in a directory. -/
inductive ObjectDirectory where
  /-- The number of objects in the shared table. -/
  | shared (count : Nat)
  /-- The tag index and the number of objects of each table. -/
  | partitioned (tables : List (Nat × Nat))
  deriving DecidableEq, Repr, Inhabited

namespace ObjectDirectory

/-- The number of objects in every table. -/
def counts : ObjectDirectory → List Nat
  | shared count => [count]
  | partitioned tables => tables.map (·.2)

/-- The tag index, if there is one per table, and the number of objects of each
table. -/
def entries : ObjectDirectory → List (Option Nat × Nat)
  | shared count => [(none, count)]
  | partitioned tables => tables.map fun (tag, count) => (some tag, count)

end ObjectDirectory

/-- The number of entries of every table. -/
structure Directory where
  /-- The number of tags. -/
  tags : Nat
  /-- The number of strings. -/
  strings : Nat
  /-- The number of arrays. -/
  arrays : Nat
  /-- The object tables. -/
  objects : ObjectDirectory
  deriving DecidableEq, Repr, Inhabited

namespace Directory

/-- The number of objects in all tables. -/
def objectEntries (d : Directory) : Nat := d.objects.counts.foldr (· + ·) 0

/-- The number of nodes: objects and arrays. -/
def nodeEntries (d : Directory) : Nat := d.objectEntries + d.arrays

/-- The number of entries of all tables. -/
def totalEntries (d : Directory) : Nat := d.tags + d.strings + d.nodeEntries

end Directory

/-- One object table of a partitioned directory. -/
def readDirectoryTable : Read (Nat × Nat) := do
  let tag ← Read.nat32
  let count ← Read.nat32
  pure (tag, count)

/-- The object tables of a partitioned directory. Each takes eight bytes. -/
def readDirectoryTables : Read (List (Nat × Nat)) := do
  let count ← Read.nat32
  let r ← get
  if r.remaining / 8 < count then Read.fail (r.tooShort (count * 8))
  Read.replicate count readDirectoryTable

/-- The object tables of a directory. -/
def readObjectDirectory (wire : WireFormat) : Read ObjectDirectory :=
  if wire.partitionedTables then .partitioned <$> readDirectoryTables else .shared <$> Read.nat32

/-- The directory of a module. -/
def readDirectory (wire : WireFormat) : Read Directory := do
  let tags ← Read.nat32
  let strings ← Read.nat32
  let arrays ← Read.nat32
  let objects ← readObjectDirectory wire
  pure { tags := tags, strings := strings, arrays := arrays, objects := objects }

end Module

end SyntaxPack
