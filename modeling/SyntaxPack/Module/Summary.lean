import SyntaxPack.Module.Header
/-!
# SyntaxPack.Module.Summary

What a module is made of, without decoding it.

A summary is read off the header, the directory and the lengths of the
substreams. It needs no registry and looks into no section, so it says nothing
about whether their content is well-formed.
-/

namespace SyntaxPack

/-- An object table in a summary. -/
structure TableSummary where
  /-- The tag index of the table's shape, in a partitioned module. -/
  shapeTag : Option Nat
  /-- The number of entries that the directory declares. -/
  count : Nat
  /-- The number of bytes of the table's substream. -/
  bytes : Nat
  deriving DecidableEq, Repr, Inhabited

/-- What a module is made of. -/
structure Summary where
  /-- The layout. -/
  wire : WireFormat
  /-- The number of tags. -/
  tags : Nat
  /-- The number of strings. -/
  strings : Nat
  /-- The number of arrays. -/
  arrays : Nat
  /-- The object tables, in order. -/
  objectTables : List TableSummary
  /-- The tag index and the number of bytes of every value stream, in order. -/
  valueStreams : List (Nat × Nat)
  /-- The name and the number of bytes of every other section, in order. -/
  sections : List (String × Nat)
  /-- The number of bytes of the module. -/
  totalBytes : Nat
  deriving DecidableEq, Repr, Inhabited

namespace Summary

/-- The number of objects in all tables; those in place are not counted. -/
def objects (s : Summary) : Nat := (s.objectTables.map (·.count)).foldr (· + ·) 0

/-! ### Reading -/

/-- The number of bytes of a substream. -/
def substreamLength : Read Nat := return (← Read.substream).remaining

/-- A value stream: its tag index and its length. -/
def readStream : Read (Nat × Nat) := do
  let tag ← Read.nat32
  let bytes ← substreamLength
  pure (tag, bytes)

/-- An object table, given its entry in the directory. -/
def readTable (entry : Option Nat × Nat) : Read TableSummary := do
  pure ⟨entry.1, entry.2, ← substreamLength⟩

/-- The summary of a module of `totalBytes` bytes. -/
def read (totalBytes : Nat) : Read Summary := do
  let wire ← Module.readHeader
  let directory ← Module.readDirectory wire
  let tags ← substreamLength
  let strings ← substreamLength
  let valueStreams ←
    if wire.valueStreams then do Read.replicate (← Read.nat32) readStream else pure []
  let objectTables ← directory.objects.entries.mapM readTable
  let arrays ← substreamLength
  let root ← substreamLength
  match (← get).expectEnd "module" with
  | .error error => Read.fail error
  | .ok () =>
    pure
      { wire := wire, tags := directory.tags, strings := directory.strings,
        arrays := directory.arrays, objectTables := objectTables, valueStreams := valueStreams,
        sections := [("tags", tags), ("strings", strings), ("arrays", arrays), ("root", root)],
        totalBytes := totalBytes }

/-! ### Showing -/

/-- The lines of a summary. -/
def lines (s : Summary) : List String :=
  let wire := s.wire
  [s!"module: {s.totalBytes} bytes",
    s!"  index encoding: {wire.indexEncoding.name}",
    s!"  partitioned tables: {wire.partitionedTables}, value streams: {wire.valueStreams}, " ++
      s!"inline objects: {wire.inlineObjects}",
    s!"  tags: {s.tags}, strings: {s.strings}, arrays: {s.arrays}, objects: {s.objects}"] ++
  s.sections.map (fun (name, bytes) => s!"  section {name}: {bytes} bytes") ++
  s.objectTables.map (fun t =>
    let tag := t.shapeTag.elim "" fun tag => s!" (tag #{tag})"
    s!"  object table{tag}: {t.count} entries, {t.bytes} bytes") ++
  s.valueStreams.map fun (tag, bytes) => s!"  value stream (tag #{tag}): {bytes} bytes"

/-- The text of a summary. -/
def render (s : Summary) : String := String.join (s.lines.map (· ++ "\n"))

end Summary

/-- Summarizes a module. -/
def inspect (bytes : List UInt8) : Except Error Summary :=
  match (Summary.read bytes.length).run (.ofBytes bytes) with
  | .ok summary _ => .ok summary
  | .error error _ => .error (.decode error)

end SyntaxPack
