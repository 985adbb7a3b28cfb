import SyntaxPack.Module.Walk
/-!
# SyntaxPack.Module.Dedupe

Structural deduplication, and the way from a tree to a finalized module.

Every registered node belongs to a class, which is found bottom-up: two nodes
are in one class if they have the same shape or element tag and their children
are equal scalars or belong to the same classes. All members of a class are
merged into its first one if they are used often enough, so that every
reference to one of them reaches that first member.
-/

namespace SyntaxPack

namespace Module

/-- A child of a node as far as its class depends on it. -/
inductive Atom where
  /-- Null. -/
  | null
  /-- A boolean. -/
  | boolean (value : Bool)
  /-- A number, by its bits. -/
  | number (value : Double)
  /-- A string. -/
  | string (value : String)
  /-- An array, by its class. -/
  | array (class_ : Nat)
  /-- An object, by its class. -/
  | object (class_ : Nat)
  deriving DecidableEq, Repr, Inhabited

/-- What the members of a class have in common. -/
inductive ClassKey where
  /-- Objects of a shape, with the values of the declared fields. -/
  | object (shape : ShapeId) (fields : List Atom)
  /-- Arrays with an element tag, with their elements. -/
  | array (elementTag : Tag) (elements : List Atom)
  deriving DecidableEq, Repr, Inhabited

/-- The shape of the members of a class, if they are objects. -/
def ClassKey.shape? : ClassKey → Option ShapeId
  | object shape _ => some shape
  | array _ _ => none

/-- A class with its members, the last one first. -/
structure NodeClass where
  /-- What the members have in common. -/
  key : ClassKey
  /-- The members, the last one first. -/
  members : List NodeId
  deriving DecidableEq, Repr, Inhabited

/-- The classes in the order of their first members. The number of a class is
its position. -/
abbrev NodeClasses := List NodeClass

namespace NodeClasses

/-- The number of the class that a node is in. -/
def classOf? (classes : NodeClasses) (node : NodeId) : Option Nat :=
  classes.findIdx? (·.members.contains node)

/-- The number of the class of a child. A child that is in no class has not been
walked to its end before its parent. -/
def requireClass (classes : NodeClasses) (node : NodeId) : Except Error Nat :=
  match classes.classOf? node with
  | some number => .ok number
  | none => .error (.encode (.danglingNode node.index))

/-- A value as a class key holds it. -/
def atom (classes : NodeClasses) : Value → Except Error Atom
  | .null => .ok .null
  | .boolean value => .ok (.boolean value)
  | .number value => .ok (.number value)
  | .string value => .ok (.string value)
  | .array child => return .array (← classes.requireClass child)
  | .object child => return .object (← classes.requireClass child)

/-- Puts a node into the class of a key, which is opened if there is none. -/
def insert (key : ClassKey) (node : NodeId) : NodeClasses → NodeClasses
  | [] => [⟨key, [node]⟩]
  | c :: classes =>
    if c.key = key then { c with members := node :: c.members } :: classes
    else c :: insert key node classes

end NodeClasses

/-- The key of a node, given the classes of its children. -/
def classKey (m : Module) (tree : Tree) (registry : Registry) (classes : NodeClasses)
    (id : NodeId) : Except Error ClassKey :=
  match tree.node? id with
  | some (.array elements) =>
    match m.elementTag? id with
    | some tag => return .array tag (← elements.mapM classes.atom)
    | none => .error (.encode (.danglingNode id.index))
  | some (.object object) => do
    let shape ← registry.shapeOf object.shape
    let values := (registry.fields shape).map fun field => object.get field.name
    return .object shape (← values.mapM classes.atom)
  | none => .error (.encode (.danglingNode id.index))

/-- The classes of nodes that come after those they refer to. -/
def classify (m : Module) (tree : Tree) (registry : Registry) (postOrder : List NodeId) :
    Except Error NodeClasses :=
  postOrder.foldlM (fun classes id => do
    let key ← m.classKey tree registry classes id
    return classes.insert key id) []

/-- How often a registered node is used. -/
def usesOf (m : Module) (shape : Option ShapeId) (node : NodeId) : Nat :=
  let table := match shape with
    | some shape => m.objects.table? shape
    | none => some m.arrays
  (table.bind fun t => (t.get? node).map t.hitCount).getD 0

/-- Merges an object into another one of its shape, or an array into another one. -/
def mergeNode (registry : Registry) (shape : Option ShapeId) (m : Module) (source target : NodeId) :
    Except TableError Module :=
  match shape with
  | some shape => m.dedupeObject registry shape source target
  | none => m.dedupeArray source target

/-- Merges a member of a class into another one, and counts it. -/
def mergeMember (registry : Registry) (shape : Option ShapeId) (target : NodeId)
    (state : Nat × Module) (source : NodeId) : Except TableError (Nat × Module) := do
  let m ← mergeNode registry shape state.2 source target
  .ok (state.1 + 1, m)

/-- Merges the members of a class into the first one, if there are several and
they are used `minUses` times in total. Every member that is merged away is
counted. -/
def mergeClass (registry : Registry) (minUses : Nat) (state : Nat × Module) (c : NodeClass) :
    Except TableError (Nat × Module) :=
  match c.members.reverse with
  | target :: source :: sources =>
    let shape := c.key.shape?
    let uses := (target :: source :: sources).map (state.2.usesOf shape)
    if uses.foldr (· + ·) 0 < minUses then .ok state
    else (source :: sources).foldlM (mergeMember registry shape target) state
  | _ => .ok state

/-- Merges structurally equal nodes, and tells how many were merged away.
`postOrder` lists every registered node after those it refers to. -/
def dedupe (m : Module) (tree : Tree) (registry : Registry) (postOrder : List NodeId)
    (minUses : Nat) : Except Error (Nat × Module) := do
  let classes ← m.classify tree registry postOrder
  (classes.foldlM (mergeClass registry minUses) (0, m)).mapError .table

end Module

/-! ### Building

A tree becomes a module in three steps: it is walked, structurally equal nodes are
merged if the configuration asks for that, and the tables are finalized. Only then do
entries have indices. -/

/-- The order of indices that a configuration asks for. -/
def EncodingConfig.ordering (config : EncodingConfig) : TableOrdering :=
  if config.orderByHitCount then .hitCountDescending else .insertion

/-- The number of uses up to which a configuration has objects written in place. -/
def EncodingConfig.inlineLimit (config : EncodingConfig) : Option Nat :=
  if config.inlineObjects then some config.inlineThreshold else none

/-- The finalized module of a tree. -/
def Module.build (tree : Tree) (registry : Registry) (config : EncodingConfig) :
    Except Error Module := do
  let (m, postOrder) ← (⟨tree, registry, config⟩ : WalkInput).walk
  let (_, m) ←
    if config.dedupe then m.dedupe tree registry postOrder config.dedupeMinUses else pure (0, m)
  .ok (m.finalize config.ordering config.inlineLimit)

end SyntaxPack
