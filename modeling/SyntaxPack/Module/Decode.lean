import SyntaxPack.Module.Basic
import SyntaxPack.Module.Header
import SyntaxPack.Stream.Basic
import SyntaxPack.Tree.Cycle
/-!
# SyntaxPack.Module.Decode

From the bytes of a module to a tree.

Nothing in the input is trusted. Every count is checked against the directory,
every index against its table, every substream against its second length, and
every section must be read to its end. The nodes of all tables are set up from
the directory first, so that references may lead forward; an object that stands
in place becomes a node when it has been read. At the end, references into the
shared object table are checked against the shapes that their slots require, and
the tree must be free of cycles.
-/

namespace SyntaxPack

namespace Module

/-! ### State

A step of decoding fails with an error and the state that it has come to. Three places can be read
from: what is behind the current section, the section itself, and the value streams. -/

/-- A reference into the shared object table whose object must have a shape. -/
structure ShapeRef where
  /-- The node that is referred to. -/
  node : NodeId
  /-- The required shape. -/
  shape : ShapeId
  /-- The index of the reference. -/
  index : Nat
  deriving DecidableEq, Repr, Inhabited

/-- How far decoding is. -/
structure DecodeState where
  /-- What follows the current section. -/
  input : Reader
  /-- The current section and the value streams. -/
  source : StreamReader
  /-- The nodes of the tree. -/
  nodes : Array Node := #[]
  /-- The references to be checked at the end, the last one first. -/
  shapeRefs : List ShapeRef := []
  deriving Repr, Inhabited

/-- A step of decoding. -/
abbrev Decode (α : Type) := EStateM Error DecodeState α

namespace Decode

/-- A state at the start of a module. -/
def start (bytes : List UInt8) : DecodeState where
  input := .ofBytes bytes
  source := ⟨.ofBytes [], none⟩

/-- Fails with a decoding error. -/
def fail {α : Type} (error : DecodeError) : Decode α := throw (.decode error)

/-- Goes on only if a check succeeds, with its result. -/
def check {α : Type} (result : Except DecodeError α) : Decode α :=
  match result with
  | .ok a => pure a
  | .error error => fail error

/-- Goes on only if a condition holds. -/
def ensure (p : Prop) [Decidable p] (error : Error) : Decode Unit :=
  if p then pure () else throw error

/-- Goes on with what was found, if anything was. -/
def require {α : Type} (found : Option α) (error : DecodeError) : Decode α :=
  match found with
  | some a => pure a
  | none => fail error

/-- Reads an item off the part of the module behind the current section. -/
def fromInput {α : Type} (read : Read α) : Decode α := fun s =>
  match read.run s.input with
  | .ok a input => .ok a { s with input := input }
  | .error error input => .error (.decode error) { s with input := input }

/-- Reads an item off the current section. -/
def fromSection {α : Type} (read : Read α) : Decode α := fun s =>
  match read.run s.source.body with
  | .ok a body => .ok a { s with source := { s.source with body := body } }
  | .error error body => .error (.decode error) { s with source := { s.source with body := body } }

/-- Reads an item from where the tokens of a stream are. -/
def fromStream {α : Type} (stream : Nat) (read : Read α) : Decode α := fun s =>
  match s.source.route stream with
  | .error error => .error (.decode error) s
  | .ok reader =>
    match read.run reader with
    | .ok a rest => .ok a { s with source := s.source.advance stream rest }
    | .error error rest => .error (.decode error) { s with source := s.source.advance stream rest }

/-- Where the unread part of the current section starts. -/
def offset : Decode Nat := fromSection Read.offset

/-- Decodes the next section, which must be read to its end. -/
def inSection {α : Type} (label : String) (content : Decode α) : Decode α := do
  let body ← fromInput Read.substream
  modify fun s => { s with source := { s.source with body := body } }
  let a ← content
  check ((← get).source.body.expectEnd label)
  pure a

/-- Reads the number of entries of a section, which must be as expected. -/
def count (label : String) (expected : Nat) : Decode Unit := do
  let found ← fromSection Read.nat32
  ensure (found = expected) (.decode (.countMismatch label expected found))

/-- Repeats a step as often as a count says, and collects its results. -/
def replicate {α : Type} (count : Nat) (step : Nat → Decode α) : Decode (List α) :=
  go count 0 []
where
  /-- Collects the results in reverse; `index` counts the steps. -/
  go : Nat → Nat → List α → Decode (List α)
    | 0, _, results => pure results.reverse
    | count + 1, index, results => do go count (index + 1) ((← step index) :: results)

end Decode

open Decode (fromInput fromSection fromStream inSection)

/-! ### Tags and strings

Both tables stand in sections of their own, behind the directory. A shape is known in a module by
its name only, and must be registered. -/

/-- The error of an index past the end of a table. -/
def outOfRange (table : String) (index length offset : Nat) : DecodeError :=
  .indexOutOfRange table index length offset

/-- The tag at an index of the tag table: the built-in ones in their order, then
shapes by their names. -/
def readTagEntry (registry : Registry) (index : Nat) : Decode Tag := do
  let offset ← Decode.offset
  let name ← fromSection Read.text
  match Builtin.ofIndex? index with
  | some b =>
    Decode.ensure (b.name = name) (.decode (.unexpectedTag name offset .builtinSeed))
    pure (.builtin b)
  | none =>
    match registry.require name with
    | .ok id => pure (.shape id)
    | .error error => throw (.schema error)

/-- The tag table. -/
def readTagTable (registry : Registry) (expected : Nat) : Decode (List Tag) := do
  Decode.count "tags" expected
  Decode.replicate expected (readTagEntry registry)

/-- The string table. -/
def readStringTable (expected : Nat) : Decode (List String) := do
  Decode.count "strings" expected
  fromSection (Read.replicate expected Read.text)

/-! ### The nodes of the tables

The directory says how many nodes each table has. They are set up before any of them is read, so a
reference is checked against a count and leads to a node that is there. -/

/-- An object table, whose nodes are consecutive. -/
structure ObjectSlots where
  /-- The label of the table. -/
  label : String
  /-- The shape of all its objects, in the partitioned layout. -/
  shape : Option ShapeId
  /-- The position of the first node. -/
  first : Nat
  /-- The number of nodes. -/
  count : Nat
  deriving DecidableEq, Repr, Inhabited

/-- What is known about a module once its tables are set up. -/
structure DecodeInput where
  /-- The shapes of the objects. -/
  registry : Registry
  /-- The layout. -/
  wire : WireFormat
  /-- The tag table. -/
  tags : Array Tag
  /-- The string table. -/
  strings : Array String
  /-- The object tables. -/
  tables : List ObjectSlots
  /-- The position of the first array. -/
  firstArray : Nat
  /-- The number of arrays. -/
  arrayCount : Nat
  /-- The number of bytes of the module, which bounds how deep objects nest. -/
  size : Nat

/-- Sets up the object tables, the nodes of the first one at position `first`. -/
def objectSlots (registry : Registry) (tags : Array Tag) (offset : Nat) :
    Nat → List (Option Nat × Nat) → Except DecodeError (List ObjectSlots)
  | _, [] => .ok []
  | first, (none, count) :: entries => do
    let slots ← objectSlots registry tags offset (first + count) entries
    .ok (⟨ObjectTables.sharedLabel, none, first, count⟩ :: slots)
  | first, (some index, count) :: entries =>
    match tags[index]? with
    | some (.shape id) => do
      let slots ← objectSlots registry tags offset (first + count) entries
      .ok (⟨ObjectTables.labelOf (registry.shapeName id), some id, first, count⟩ :: slots)
    | some tag => .error (.unexpectedTag (registry.tagName tag) offset .tableDirectory)
    | none => .error (outOfRange "tags" index tags.size offset)

/-- The nodes of an object table before they are read. -/
def ObjectSlots.blank (registry : Registry) (slots : ObjectSlots) : Array Node :=
  .replicate slots.count (.object { shape := slots.shape.elim "" registry.shapeName })

/-- The nodes of all tables before they are read: the objects, then the arrays. -/
def blankNodes (registry : Registry) (tables : List ObjectSlots) (arrays : Nat) : Array Node :=
  tables.foldl (fun nodes slots => nodes ++ slots.blank registry) #[] ++
    Array.replicate arrays (Node.array [])

/-- Sets up the nodes of all tables. Each takes at least one of the bytes that
are left. -/
def allocate (registry : Registry) (directory : Directory) (tags : Array Tag) :
    Decode (List ObjectSlots) := do
  let input := (← get).input
  Decode.ensure (directory.nodeEntries ≤ input.remaining)
    (.decode (input.tooShort directory.nodeEntries))
  let tables ← Decode.check (objectSlots registry tags input.offset 0 directory.objects.entries)
  modify fun s => { s with nodes := blankNodes registry tables directory.arrays }
  pure tables

/-- Puts a node that has been read into its place. -/
def setNode (position : Nat) (node : Node) : Decode Unit :=
  modify fun s => { s with nodes := s.nodes.setIfInBounds position node }

/-- Adds a node for an object that stands in place. -/
def pushNode (node : Node) : Decode NodeId := do
  let id : NodeId := ⟨(← get).nodes.size⟩
  modify fun s => { s with nodes := s.nodes.push node }
  pure id

namespace DecodeInput

variable (input : DecodeInput)

/-! ### Tokens -/

/-- The tag index of a shape. If the tag table names it twice, the last one. -/
def shapeTag (id : ShapeId) : Option Nat :=
  let last := input.tags.toList.reverse.findIdx? (· = .shape id)
  last.map (input.tags.size - 1 - ·)

/-- Reads an item from where the tokens of a tag are. -/
def fromTag {α : Type} (tag : Tag) (read : Read α) : Decode α :=
  fromStream (tag.streamIndex input.shapeTag) read

/-- Reads an item together with where it starts. -/
def located {α : Type} (read : Read α) : Read (Nat × α) := do
  let offset ← Read.offset
  let item ← read
  pure (offset, item)

/-- A tag token. -/
def readTag : Decode Tag := do
  let (offset, index) ← input.fromTag (.builtin .any) (located input.wire.indexEncoding.readIndex)
  Decode.require input.tags[index]? (outOfRange "tags" index input.tags.size offset)

/-- Null in a slot that admits it. -/
def nullOr (nullable : Bool) (offset : Nat) (expected : String) : Decode Value :=
  if nullable then pure .null else Decode.fail (.unexpectedNull offset expected)

/-! ### References to objects

A slot for objects of a shape refers to the table of that shape or, if all objects share a table, to
that one. In the second case the object may turn out to be of another shape, which is looked at when
all tables have been read. -/

/-- The object table that a slot for objects of a shape refers to. If several
tables have the shape, the last one. -/
def tableFor (expected : Option ShapeId) : Option ObjectSlots :=
  match expected with
  | some shape =>
    if input.wire.partitionedTables then input.tables.reverse.find? (·.shape = some shape)
    else input.tables.head?
  | none => input.tables.head?

/-- The object table that a slot refers to, an empty one if there is none. -/
def slotsFor (expected : Option ShapeId) : ObjectSlots :=
  (input.tableFor expected).getD ⟨ObjectTables.sharedLabel, none, 0, 0⟩

/-- What a reference to an object leaves to be checked: if its table holds objects
of any shape, the shape is not known before all tables are read. -/
def pendingRefs (expected : Option ShapeId) (node : NodeId) (index : Nat) : List ShapeRef :=
  match expected with
  | some shape => if input.wire.partitionedTables then [] else [⟨node, shape, index⟩]
  | none => []

/-- The object at an index. -/
def objectRef (expected : Option ShapeId) (index offset : Nat) : Decode Value := do
  let slots := input.slotsFor expected
  Decode.ensure (index < slots.count)
    (.decode (outOfRange slots.label index slots.count offset))
  let node : NodeId := ⟨slots.first + index⟩
  modify fun s => { s with shapeRefs := input.pendingRefs expected node index ++ s.shapeRefs }
  pure (.object node)

/-- The tag under which a slot for objects of a shape, or of any, is read. -/
def slotTag (expected : Option ShapeId) : Tag := expected.elim (.builtin .object) .shape

/-- An object slot. If objects can stand in place, it starts with a marker, and
the fields of an object in place are read through `readFields`. -/
def objectSlot (readFields : ShapeId → Decode Object) (expected : Option ShapeId)
    (nullable : Bool) : Decode Value := do
  let enc := input.wire.indexEncoding
  let tag := slotTag expected
  if input.wire.inlineObjects then
    let offset ← Decode.offset
    match ← input.readTag with
    | .builtin .null => nullOr nullable offset (input.registry.tagName tag)
    | .builtin .object =>
      let (offset, index) ← input.fromTag tag (located enc.readIndex)
      input.objectRef expected index offset
    | .shape shape =>
      Decode.ensure (expected.all (· = shape))
        (.decode (.unexpectedTag (input.registry.shapeName shape) offset .slotMarker))
      let object ← readFields shape
      return .object (← pushNode (.object object))
    | marker => Decode.fail (.unexpectedTag (input.registry.tagName marker) offset .slotMarker)
  else
    match ← input.fromTag tag (located enc.readReference) with
    | (offset, some index) => input.objectRef expected index offset
    | (offset, none) => nullOr nullable offset (input.registry.tagName tag)

/-! ### Slots

What a slot holds is read under a tag, which its layout fixes or which stands in front. Elements of
arrays and the root are slots, too. -/

/-- The value of a slot under a tag that is known. -/
def underTag (readFields : ShapeId → Decode Object) (tag : Tag) (nullable : Bool) :
    Decode Value := do
  let enc := input.wire.indexEncoding
  match tag with
  | .builtin .null => pure .null
  | .builtin .trueValue => pure (.boolean true)
  | .builtin .falseValue => pure (.boolean false)
  | .builtin .integer => return .number (.ofInt (← input.fromTag tag enc.readInteger))
  | .builtin .double => return .number (← input.fromTag tag Read.double)
  | .builtin .string =>
    match ← input.fromTag tag (located enc.readReference) with
    | (offset, some index) =>
      let error := outOfRange "strings" index input.strings.size offset
      return .string (← Decode.require input.strings[index]? error)
    | (offset, none) => nullOr nullable offset "string"
  | .builtin .array =>
    match ← input.fromTag tag (located enc.readReference) with
    | (offset, some index) =>
      Decode.ensure (index < input.arrayCount)
        (.decode (outOfRange "arrays" index input.arrayCount offset))
      pure (.array ⟨input.firstArray + index⟩)
    | (offset, none) => nullOr nullable offset "array"
  | .builtin .object => input.objectSlot readFields none nullable
  | .shape shape => input.objectSlot readFields (some shape) nullable
  | .builtin .any | .builtin .boolean | .builtin .number =>
    Decode.fail (.unexpectedTag (input.registry.tagName tag) (← Decode.offset) .declaredKind)

/-- A slot of a layout. A tag in front of a value must be one that values carry
and that the declaration accepts. -/
def slot (readFields : ShapeId → Decode Object) : Codec → Decode Value
  | .tagged decl => do
    let offset ← Decode.offset
    let tag ← input.readTag
    Decode.ensure (tag ≠ .builtin .any) (.schema (.anyAsTerminal offset))
    Decode.ensure (tag.isTerminal && decl.accepts tag)
      (.decode (.unexpectedTag (input.registry.tagName tag) offset .declaredType))
    input.underTag readFields tag false
  | .fixed tag nullable => input.underTag readFields tag nullable

/-- The slots of an object's declared fields. -/
def fieldSlots (readFields : ShapeId → Decode Object) (shape : ShapeId) : Decode Object := do
  let fields := input.registry.fields shape
  let values ← fields.mapM fun field =>
    input.slot readFields (Codec.ofDecl field.type input.wire.partitionedTables)
  pure (Object.ofFields (input.registry.shapeName shape) ((fields.map (·.name)).zip values))

/-- The slots of an object's declared fields, with at most `depth` objects in
place inside one another. Each of those starts with a marker of at least one
byte, so they nest no deeper than the module has bytes. -/
def fieldsWithin : Nat → ShapeId → Decode Object
  | 0, _ => do Decode.fail ((← get).source.body.tooShort 1)
  | depth + 1, shape => input.fieldSlots (fieldsWithin depth) shape

/-- The slots of an object's declared fields. -/
def objectFields (shape : ShapeId) : Decode Object := input.fieldsWithin (input.size + 1) shape

/-! ### Sections

Every entry of a table fills the node that was set up for it, in the order of the table. -/

/-- The value streams, each after the index of its tag. -/
def readStream (_ : Nat) : Decode Unit := do
  let (offset, tag) ← fromInput (located Read.nat32)
  Decode.ensure (tag < input.tags.size)
    (.decode (outOfRange "tags" tag input.tags.size offset))
  let stream ← fromInput Read.substream
  let (result, source) := (← get).source.insert tag stream
  modify fun s => { s with source := source }
  Decode.check result

/-- The value streams, if the layout has them. -/
def readStreams : Decode Unit := do
  if input.wire.valueStreams then
    let count ← fromInput Read.nat32
    modify fun s => { s with source := { s.source with streams := some [] } }
    let _ ← Decode.replicate count input.readStream

/-- One entry of an object table: its tag, then its fields. -/
def readTableEntry (slots : ObjectSlots) (index : Nat) : Decode Unit := do
  let offset ← Decode.offset
  match ← input.readTag with
  | .shape found =>
    let expected := slots.shape.elim "" input.registry.shapeName
    Decode.ensure (slots.shape.all (· = found))
      (.decode (.shapeMismatch slots.label expected (input.registry.shapeName found) index))
    let object ← input.objectFields found
    setNode (slots.first + index) (.object object)
  | tag => Decode.fail (.unexpectedTag (input.registry.tagName tag) offset .tableEntry)

/-- An object table. -/
def readTable (slots : ObjectSlots) : Decode Unit := do
  Decode.count slots.label slots.count
  let _ ← Decode.replicate slots.count (input.readTableEntry slots)

/-- The elements of an array, after their tag if there are any. -/
def readElements (length : Nat) : Decode (List Value) := do
  if length = 0 then pure []
  else
    let tag ← input.readTag
    let codec := Codec.ofElement tag input.wire.partitionedTables
    Decode.replicate length fun _ => input.slot input.objectFields codec

/-- One array: its length, then its elements. -/
def readArray (index : Nat) : Decode Unit := do
  let (offset, length) ← fromSection (located Read.unsigned)
  Decode.ensure (length < UInt32.size) (.decode (.malformedVarint offset))
  let elements ← input.readElements length
  setNode (input.firstArray + index) (.array elements)

/-- The array table. -/
def readArrays : Decode Unit := do
  Decode.count "arrays" input.arrayCount
  let _ ← Decode.replicate input.arrayCount input.readArray

/-- All sections after the strings. The result is the root value. -/
def readSections : Decode Value := do
  input.readStreams
  input.tables.forM fun slots => inSection slots.label (input.readTable slots)
  inSection "arrays" input.readArrays
  let root ← inSection "root" (input.slot input.objectFields (.tagged .any))
  Decode.check (← get).source.expectEnd
  pure root

end DecodeInput

/-! ### The module -/

/-- Everything in front of the sections that hold values: the header, the
directory, the tags and the strings. The nodes of all tables are set up. -/
def readInput (registry : Registry) : Decode DecodeInput := do
  let size := (← get).input.remaining
  let wire ← fromInput readHeader
  let directory ← fromInput (readDirectory wire)
  let tags ← inSection "tags" (readTagTable registry directory.tags)
  let strings ← inSection "strings" (readStringTable directory.strings)
  let tables ← allocate registry directory tags.toArray
  pure
    { registry := registry, wire := wire, tags := tags.toArray, strings := strings.toArray,
      tables := tables, firstArray := directory.objectEntries, arrayCount := directory.arrays,
      size := size }

/-- A whole module, up to the end of its bytes. -/
def readModule (registry : Registry) : Decode Value := do
  let input ← readInput registry
  let root ← input.readSections
  Decode.check ((← get).input.expectEnd "module")
  pure root

/-- Checks a reference into the shared object table. -/
def checkShapeRef (registry : Registry) (tree : Tree) (ref : ShapeRef) : Except Error Unit :=
  let expected := registry.shapeName ref.shape
  let found := (tree.object? ref.node).elim "" (·.shape)
  if found = expected then .ok ()
  else .error (.decode (.shapeMismatch ObjectTables.sharedLabel expected found ref.index))

/-- What has to hold of a tree once it is complete. -/
def checkTree (registry : Registry) (tree : Tree) (refs : List ShapeRef) : Except Error Unit := do
  refs.forM (checkShapeRef registry tree)
  match tree.findCycle with
  | some node => .error (.decode (.cyclicReference node.index))
  | none => .ok ()

end Module

/-- Decodes the bytes of a module into a tree. -/
def decode (bytes : List UInt8) (registry : Registry) : Except Error Tree :=
  match (Module.readModule registry).run (Module.Decode.start bytes) with
  | .error error _ => .error error
  | .ok root state => do
    let tree : Tree := ⟨state.nodes, root⟩
    Module.checkTree registry tree state.shapeRefs.reverse
    .ok tree

end SyntaxPack
