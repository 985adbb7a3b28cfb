import SyntaxPack.Config
import SyntaxPack.Shape.Codec
import SyntaxPack.Table.Basic
import SyntaxPack.Tree.Basic
/-!
# SyntaxPack.Module.Basic

Modules in memory: every table that a written module is made of.

The walk over a tree fills the tables, deduplication may merge entries, and
`Module.finalize` then assigns all indices at once. Only a finalized module can
be written, so no index is used before every table is complete; this is what
makes ordering by hit count safe.
-/

namespace SyntaxPack

/-- An object table, with its shape if it holds the objects of one shape. -/
structure ObjectTable where
  /-- The shape of all objects in the table, in the partitioned layout. -/
  shape : Option ShapeId
  /-- The objects. -/
  table : UniqueTable NodeId
  deriving DecidableEq, Repr

/-- All object tables: a shared one, or one per shape in the order of first use. -/
structure ObjectTables where
  /-- Whether there is one table per shape. -/
  partitioned : Bool
  /-- Whether tables check for divergence. -/
  checkDivergence : Bool
  /-- The tables, in the order of the directory. -/
  tables : List ObjectTable
  deriving DecidableEq, Repr

namespace ObjectTables

/-- The label of the shared object table. -/
def sharedLabel : String := "objects"

/-- The label of the object table of a shape. -/
def labelOf (shapeName : String) : String := s!"objects:{shapeName}"

/-- Object tables without objects. -/
def empty (partitioned checkDivergence : Bool) : ObjectTables where
  partitioned := partitioned
  checkDivergence := checkDivergence
  tables := if partitioned then [] else [⟨none, .empty sharedLabel checkDivergence⟩]

/-- Whether a table holds the objects of a shape. -/
def holds (objects : ObjectTables) (shape : ShapeId) (table : ObjectTable) : Bool :=
  !objects.partitioned || table.shape = some shape

/-- The table that holds the objects of a shape, if there is one. -/
def table? (objects : ObjectTables) (shape : ShapeId) : Option (UniqueTable NodeId) :=
  (objects.tables.find? (objects.holds shape)).map (·.table)

/-- Makes sure that there is a table for the objects of a shape. -/
def ensureTable (objects : ObjectTables) (registry : Registry) (shape : ShapeId) : ObjectTables :=
  if (objects.table? shape).isSome then objects
  else
    let label := labelOf (registry.shapeName shape)
    let table := ⟨some shape, .empty label objects.checkDivergence⟩
    { objects with tables := objects.tables ++ [table] }

/-- Replaces the table that holds the objects of a shape. -/
def setTable (objects : ObjectTables) (shape : ShapeId) (table : UniqueTable NodeId) :
    ObjectTables :=
  match objects.tables.findIdx? (objects.holds shape) with
  | some slot => { objects with tables := objects.tables.modify slot ({ · with table := table }) }
  | none => objects

/-- Changes the table that holds the objects of a shape, which exists from then
on. -/
def update (objects : ObjectTables) (registry : Registry) (shape : ShapeId)
    (f : UniqueTable NodeId → Except TableError (UniqueTable NodeId)) :
    Except TableError ObjectTables := do
  let objects := objects.ensureTable registry shape
  match objects.table? shape with
  | some table => .ok (objects.setTable shape (← f table))
  | none => .ok objects

end ObjectTables

/-- The tables of a module and its root value. -/
structure Module where
  /-- The tags: the built-in ones, then those of the shapes in use. -/
  tags : Table String Tag
  /-- The strings in use. -/
  strings : UniqueTable String
  /-- The objects in use. -/
  objects : ObjectTables
  /-- The arrays in use. -/
  arrays : UniqueTable NodeId
  /-- The element tag of each array. -/
  elementTags : List (NodeId × Tag) := []
  /-- The root of the tree. -/
  root : Value := .null
  /-- The tag index of each shape that has one, once the module is finalized. -/
  shapeTags : List (ShapeId × Nat) := []
  deriving DecidableEq, Repr

namespace Module

/-- The tag table of a module without shapes: the built-in tags in their order. -/
def seededTags (checkDivergence : Bool) : Table String Tag where
  label := "tags"
  checkDivergence := checkDivergence
  entries := Builtin.all.map fun b => { name := b.name, value := .builtin b }

/-- A module without content. -/
def empty (config : EncodingConfig) : Module where
  tags := seededTags config.checkDivergence
  strings := .empty "strings" config.checkDivergence
  objects := .empty config.partitionedTables config.checkDivergence
  arrays := .empty "arrays" config.checkDivergence

/-! ### Filling -/

/-- Interns a string. -/
def internString (m : Module) (s : String) : Except TableError Module := do
  let (_, strings) ← m.strings.intern s
  .ok { m with strings := strings }

/-- Registers an array, and tells whether it was not registered before. -/
def registerArray (m : Module) (id : NodeId) : Except TableError (Bool × Module) := do
  let isNew := (m.arrays.get? id).isNone
  let (_, arrays) ← m.arrays.intern id
  .ok (isNew, { m with arrays := arrays })

/-- Registers an object of a shape together with the tag of the shape, and tells
whether the object was not registered before. -/
def registerObject (m : Module) (registry : Registry) (shape : ShapeId) (id : NodeId) :
    Except TableError (Bool × Module) := do
  let tag := Tag.shape shape
  let (_, tags) ← m.tags.add (registry.tagName tag) tag
  let isNew := ((m.objects.table? shape).bind (·.get? id)).isNone
  let objects ← m.objects.update registry shape fun table => do
    let (_, table) ← table.intern id
    .ok table
  .ok (isNew, { m with tags := tags, objects := objects })

/-- The element tag of an array. -/
def elementTag? (m : Module) (id : NodeId) : Option Tag := m.elementTags.lookup id

/-- Sets the element tag of an array. -/
def setElementTag (m : Module) (id : NodeId) (tag : Tag) : Module :=
  { m with elementTags := (id, tag) :: m.elementTags }

/-- Merges an object into another one of the same shape. -/
def dedupeObject (m : Module) (registry : Registry) (shape : ShapeId) (source target : NodeId) :
    Except TableError Module := do
  let objects ← m.objects.update registry shape (·.dedupe source target)
  .ok { m with objects := objects }

/-- Merges an array into another one. -/
def dedupeArray (m : Module) (source target : NodeId) : Except TableError Module := do
  .ok { m with arrays := ← m.arrays.dedupe source target }

/-! ### Finalization -/

/-- The tag indices of the shapes in a finalized tag table. -/
def shapeTagsOf (tags : Table String Tag) : List (ShapeId × Nat) :=
  tags.live.filterMap fun (_, entry) =>
    match entry.value, entry.index with
    | .shape id, some index => some (id, index)
    | _, _ => none

/-- Assigns the indices of every table. Strings, objects and arrays follow
`ordering`; tags keep the order of insertion, so that built-in tags stay where
they are. Objects used at most `inlineThreshold` times, if there is such a
threshold, are left without an index. -/
def finalize (m : Module) (ordering : TableOrdering) (inlineThreshold : Option Nat) : Module :=
  let tags := m.tags.finalizeAll .insertion
  let keep (entry : Entry NodeId NodeId) : Bool := inlineThreshold.all (· < entry.hitCount)
  let finalizeTable (t : ObjectTable) : ObjectTable :=
    { t with table := t.table.finalize ordering keep }
  { m with
    tags := tags
    strings := m.strings.finalizeAll ordering
    arrays := m.arrays.finalizeAll ordering
    objects := { m.objects with tables := m.objects.tables.map finalizeTable }
    shapeTags := shapeTagsOf tags }

/-- Whether indices are assigned. -/
def isFinalized (m : Module) : Bool := m.tags.isFinalized

/-- The index of a tag in the finalized tag table. -/
def tagIndex (m : Module) (registry : Registry) (tag : Tag) : Except TableError Nat :=
  match tag with
  | .builtin b => .ok b.seedIndex
  | .shape id =>
    match m.shapeTags.lookup id with
    | some index => .ok index
    | none => m.tags.indexOf (registry.tagName tag)

end Module

end SyntaxPack
