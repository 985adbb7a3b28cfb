import SyntaxPack.Bytes.Writer
import SyntaxPack.Module.Dedupe
import SyntaxPack.Module.Header
import SyntaxPack.Stream.Basic
/-!
# SyntaxPack.Module.Write

The bytes of a finalized module.

A slot is written as a list of *tokens*: bytes together with the tag whose
value stream they belong to, or with none if they always stand in the section.
Which tokens a slot consists of does not depend on whether the layout has value
streams; a `StreamWriter` sends them to their places afterwards. This keeps the
recursion over objects that are written in place free of any state.
-/

namespace SyntaxPack

/-- Bytes of a section, and the value stream they go to if there are any. -/
structure Token where
  /-- The tag index of the stream; none for bytes that stay in the section. -/
  stream : Option Nat
  /-- The bytes. -/
  bytes : List UInt8
  deriving DecidableEq, Repr, Inhabited

/-- Sends tokens to their places, one after another. -/
def StreamWriter.putTokens (w : StreamWriter) (tokens : List Token) : StreamWriter :=
  tokens.foldl (fun w token =>
    match token.stream with
    | some tag => w.putUnder tag token.bytes
    | none => w.put token.bytes) w

namespace Module

/-- What writing a module depends on. -/
structure WriteInput where
  /-- The tree of the module. -/
  tree : Tree
  /-- The shapes of its objects. -/
  registry : Registry
  /-- The finalized module. -/
  module : Module
  /-- The layout. -/
  wire : WireFormat

namespace WriteInput

variable (input : WriteInput)

/-! ### Tokens

A token knows the stream of its tag whether or not there are streams in the layout. Where a tag
itself is written, its token belongs to the stream of `any`. -/

/-- A token of a tag. -/
def token (tag : Tag) (bytes : List UInt8) : Token :=
  let shapeTag (id : ShapeId) := (input.module.tagIndex input.registry (.shape id)).toOption
  ⟨some (tag.streamIndex shapeTag), bytes⟩

/-- The token of a tag itself, which goes to the stream of `any`. -/
def tagToken (tag : Tag) : Except Error Token := do
  let index ← (input.module.tagIndex input.registry tag).mapError .table
  let bytes ← (input.wire.indexEncoding.writeIndex "tags" index).mapError .encode
  .ok (input.token (.builtin .any) bytes)

/-- The token of a reference into a table under a tag. -/
def referenceToken (tag : Tag) (table : String) (index : Option Nat) : Except Error Token := do
  let bytes ← (input.wire.indexEncoding.writeReference table index).mapError .encode
  .ok (input.token tag bytes)

/-- The error of a value in a slot for values of another kind. -/
def mismatch (site : Site) (expected found : String) : Error :=
  .schema (.typeMismatch site expected found)

/-- The label of the table for objects of a shape, or that of the shared table. -/
def tableLabel (shape : Option ShapeId) : String :=
  ((shape.bind input.module.objects.table?).map (·.label)).getD ObjectTables.sharedLabel

/-- The tag under which a slot for objects of a shape, or of any, is written. -/
def slotTag (expected : Option ShapeId) : Tag := expected.elim (.builtin .object) .shape

/-! ### Slots -/

/-- A null object reference: a marker if objects can be written in place, else an
absent reference. -/
def nullObjectSlot (expected : Option ShapeId) : Except Error (List Token) := do
  if input.wire.inlineObjects then .ok [← input.tagToken (.builtin .null)]
  else .ok [← input.referenceToken (slotTag expected) (input.tableLabel expected) none]

/-- An object slot that holds an object: a reference to its table entry. If
objects can be written in place, a marker comes first, and an entry without an
index is written there with its fields, through `writeFields`. -/
def objectSlot (writeFields : ShapeId → NodeId → Except Error (List Token))
    (expected : Option ShapeId) (site : Site) (node : NodeId) : Except Error (List Token) := do
  let enc := input.wire.indexEncoding
  let shape ← input.tree.shapeOf input.registry node
  if expected.any (· ≠ shape) then
    throw (mismatch site (input.registry.tagName (slotTag expected))
      (input.registry.shapeName shape))
  match input.module.objects.table? shape with
  | none => throw (.table (.unknownName ObjectTables.sharedLabel (EntryName.shown node)))
  | some table =>
    let handle ← (table.require node).mapError .table
    let index := (table.entry? handle).bind (·.index)
    if input.wire.inlineObjects then
      match index with
      | some index =>
        let marker ← input.tagToken (.builtin .object)
        let bytes ← (enc.writeIndex table.label index).mapError .encode
        .ok [marker, input.token (slotTag expected) bytes]
      | none =>
        let marker ← input.tagToken (.shape shape)
        .ok (marker :: (← writeFields shape ((table.value? handle).getD node)))
    else
      match index with
      | some index => .ok [← input.referenceToken (slotTag expected) table.label (some index)]
      | none => throw (.table (.unindexed table.label (EntryName.shown node)))

/-- The value of a slot under a tag that is known. -/
def underTag (writeFields : ShapeId → NodeId → Except Error (List Token)) (tag : Tag)
    (nullable : Bool) (site : Site) (value : Value) : Except Error (List Token) :=
  match tag, value with
  | .builtin .null, .null => .ok []
  | .builtin .trueValue, .boolean true => .ok []
  | .builtin .falseValue, .boolean false => .ok []
  | .builtin .integer, .number d =>
    match d.integerPayload with
    | some i => .ok [input.token tag (input.wire.indexEncoding.writeInteger i)]
    | none => .error (mismatch site "integer" "double")
  | .builtin .double, .number d => .ok [input.token tag (Bytes.ofDouble d)]
  | .builtin .string, .string s => do
    let index ← (input.module.strings.indexOf s).mapError .table
    .ok [← input.referenceToken tag "strings" (some index)]
  | .builtin .array, .array id => do
    let index ← (input.module.arrays.indexOf id).mapError .table
    .ok [← input.referenceToken tag "arrays" (some index)]
  | .builtin .object, .object id => input.objectSlot writeFields none site id
  | .shape shape, .object id => input.objectSlot writeFields (some shape) site id
  | tag, value => do
    if nullable && value = .null then
      match tag with
      | .builtin .string => return [← input.referenceToken tag "strings" none]
      | .builtin .array => return [← input.referenceToken tag "arrays" none]
      | .builtin .object => return ← input.nullObjectSlot none
      | .shape shape => return ← input.nullObjectSlot (some shape)
      | _ => pure ()
    let found ← Tag.of input.tree input.registry value
    throw (mismatch site (input.registry.tagName tag) (input.registry.tagName found))

/-- A slot of a layout. -/
def slot (writeFields : ShapeId → NodeId → Except Error (List Token)) (codec : Codec)
    (site : Site) (value : Value) : Except Error (List Token) :=
  match codec with
  | .tagged decl => do
    let tag ← Tag.of input.tree input.registry value
    if !decl.accepts tag then
      throw (mismatch site "declared type" (input.registry.tagName tag))
    let marker ← input.tagToken tag
    .ok (marker :: (← input.underTag writeFields tag false site value))
  | .fixed tag nullable => input.underTag writeFields tag nullable site value

/-- The slots of an object's declared fields. -/
def fieldSlots (writeFields : ShapeId → NodeId → Except Error (List Token)) (shape : ShapeId)
    (node : NodeId) : Except Error (List Token) := do
  let object ← input.tree.requireObject node
  let slots ← (input.registry.fields shape).mapM fun field =>
    input.slot writeFields (Codec.ofDecl field.type input.wire.partitionedTables)
      (.field (input.registry.shapeName shape) field.name) (object.get field.name)
  .ok slots.flatten

/-- The slots of an object's declared fields, with at most `depth` objects
written in place inside one another. In a tree without cycles, the number of
nodes is room enough. -/
def fieldsWithin : Nat → ShapeId → NodeId → Except Error (List Token)
  | 0, _, node => .error (.encode (.endlessObject node.index))
  | depth + 1, shape, node => input.fieldSlots (fieldsWithin depth) shape node

/-- The slots of an object's declared fields. -/
def objectFields (shape : ShapeId) (node : NodeId) : Except Error (List Token) :=
  input.fieldsWithin (input.tree.size + 1) shape node

/-! ### Sections

A section of a table lists the entries that have an index, in the order of their indices, behind
their number. -/

/-- Bytes that stand in a section whatever the layout. -/
def plain (bytes : List UInt8) : Token := ⟨none, bytes⟩

/-- The number of entries that a section starts with. -/
def countToken (label : String) (count : Nat) : Except Error Token :=
  return plain (← (Bytes.ofCount label count).mapError .encode)

/-- An object table: every indexed object with its tag and its fields. -/
def objectSection (table : UniqueTable NodeId) : Except Error (List Token) := do
  let order ← table.indexed.mapError .table
  let count ← countToken table.label order.length
  let entries ← (order.filterMap table.value?).mapM fun node => do
    let shape ← input.tree.shapeOf input.registry node
    let marker ← input.tagToken (.shape shape)
    return marker :: (← input.objectFields shape node)
  .ok (count :: entries.flatten)

/-- One array: its length, then its element tag and elements if it has any. -/
def arrayEntry (id : NodeId) : Except Error (List Token) := do
  let elements ← input.tree.requireArray id
  let length := plain (Varint.encodeUnsigned elements.length)
  if elements.isEmpty then .ok [length]
  else
    match input.module.elementTag? id with
    | none => .error (.encode (.danglingNode id.index))
    | some tag =>
      let marker ← input.tagToken tag
      let codec := Codec.ofElement tag input.wire.partitionedTables
      let slots ← elements.mapM (input.slot input.objectFields codec (.element id.index))
      .ok (length :: marker :: slots.flatten)

/-- The array table. -/
def arraySection : Except Error (List Token) := do
  let arrays := input.module.arrays
  let order ← arrays.indexed.mapError .table
  let count ← countToken "arrays" order.length
  let entries ← (order.filterMap arrays.value?).mapM input.arrayEntry
  .ok (count :: entries.flatten)

/-- The root value, in a slot for any value. -/
def rootSection : Except Error (List Token) :=
  input.slot input.objectFields (.tagged .any) .root input.module.root

/-- The tag table: the name of every tag. -/
def tagSection : Except Error (List UInt8) := do
  let tags := input.module.tags
  let order ← tags.indexed.mapError .table
  let count ← (Bytes.ofCount "tags" order.length).mapError .encode
  let names := (order.filterMap tags.entry?).map (·.name)
  .ok (count ++ names.flatMap Bytes.ofText)

/-- The string table: every string. -/
def stringSection : Except Error (List UInt8) := do
  let strings := input.module.strings
  let order ← strings.indexed.mapError .table
  let count ← (Bytes.ofCount "strings" order.length).mapError .encode
  .ok (count ++ (order.filterMap strings.value?).flatMap Bytes.ofText)

/-! ### The module

All sections are made of tokens first. Their tokens are then placed one section after another, and
by that the value streams are complete before anything is framed. -/

/-- The signature, the format name and the layout. -/
def header : List UInt8 :=
  magic ++ Bytes.ofText formatName ++ [input.wire.indexEncoding.toByte, input.wire.flags]

/-- A count of the directory. -/
def directoryCount (label : String) (count : Nat) : Except Error (List UInt8) :=
  (Bytes.ofCount label count).mapError .encode

/-- The number of indexed entries of an object table, in the directory. -/
def tableCount (table : UniqueTable NodeId) : Except Error (List UInt8) := do
  let order ← table.indexed.mapError .table
  directoryCount table.label order.length

/-- One object table in the directory of a partitioned module: the index of its
tag and the number of its entries. -/
def directoryTable (t : ObjectTable) : Except Error (List UInt8) := do
  let index ← (input.module.tagIndex input.registry (slotTag t.shape)).mapError .table
  .ok (Bytes.fixed 4 index ++ (← tableCount t.table))

/-- The object tables in the directory. -/
def directoryObjects : Except Error (List UInt8) := do
  let tables := input.module.objects.tables
  if input.wire.partitionedTables then
    let count ← directoryCount "object tables" tables.length
    .ok (count ++ (← tables.mapM input.directoryTable).flatten)
  else
    match tables with
    | t :: _ => tableCount t.table
    | [] => directoryCount ObjectTables.sharedLabel 0

/-- The directory. -/
def directory : Except Error (List UInt8) := do
  let tags ← directoryCount "tags" input.module.tags.size
  let strings ← directoryCount "strings" input.module.strings.size
  let arrays ← directoryCount "arrays" input.module.arrays.size
  .ok (tags ++ strings ++ arrays ++ (← input.directoryObjects))

/-- A framed section. -/
def frame (label : String) (bytes : List UInt8) : Except Error (List UInt8) :=
  (Bytes.framed label bytes).mapError .encode

/-- Sends the tokens of a section to their places, and takes the section out. -/
def place (w : StreamWriter) (tokens : List Token) : List UInt8 × StreamWriter :=
  let w := w.putTokens tokens
  (w.body.toList, { w with body := #[] })

/-- Places several sections one after another. -/
def placeAll (w : StreamWriter) : List (List Token) → List (List UInt8) × StreamWriter
  | [] => ([], w)
  | tokens :: sections =>
    let (bytes, w) := place w tokens
    let (rest, w) := placeAll w sections
    (bytes :: rest, w)

/-- The value streams: their number, then each with its tag index. -/
def streamSection (w : StreamWriter) : Except Error (List UInt8) := do
  if !input.wire.valueStreams then return []
  let count ← directoryCount "value streams" w.filled.length
  let streams ← w.filled.mapM fun (tag, bytes) => do
    return Bytes.fixed 4 tag ++ (← frame s!"value stream #{tag}" bytes)
  .ok (count ++ streams.flatten)

/-- The bytes of the module. The value streams stand before the sections whose
tokens they hold. -/
def bytes : Except Error (List UInt8) := do
  let directory ← input.directory
  let tags ← frame "tags" (← input.tagSection)
  let strings ← frame "strings" (← input.stringSection)
  let tables := input.module.objects.tables.map (·.table)
  let objectTokens ← tables.mapM input.objectSection
  let arrayTokens ← input.arraySection
  let rootTokens ← input.rootSection
  let (objects, w) := placeAll (.start input.wire.valueStreams) objectTokens
  let (arrays, w) := place w arrayTokens
  let (root, w) := place w rootTokens
  let streams ← input.streamSection w
  let objects ← (tables.zip objects).mapM fun (table, bytes) => frame table.label bytes
  let arrays ← frame "arrays" arrays
  let root ← frame "root" root
  .ok (input.header ++ directory ++ tags ++ strings ++ streams ++ objects.flatten ++ arrays ++ root)

end WriteInput

end Module

/-- Encodes a tree into the bytes of a module. -/
def encode (tree : Tree) (registry : Registry) (config : EncodingConfig) :
    Except Error (List UInt8) := do
  let module ← Module.build tree registry config
  (⟨tree, registry, module, config.wire⟩ : Module.WriteInput).bytes

end SyntaxPack
