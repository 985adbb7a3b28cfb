import SyntaxPack.Double.Basic
import SyntaxPack.Table.Basic
/-!
# SyntaxPack.Tree.Basic

Syntax trees.

A tree is an arena of nodes and a root value. Only arrays and objects are nodes;
every other value stands where it is used. Values refer to nodes by their
position in the arena, so a node may be shared, may refer back to itself, and a
reference may lead to no node at all or to one of the other kind. What is
well-formed about a tree is checked where it matters, not assumed here.
-/

namespace SyntaxPack

/-- The identity of a node: its position in the arena. -/
structure NodeId where
  /-- The position, from zero. -/
  index : Nat
  deriving DecidableEq, Repr, Inhabited

/-- A node id names its table entry as `NodeId(7)`. -/
instance : EntryName NodeId := ⟨fun id => s!"NodeId({id.index})"⟩

/-- A value of a tree. -/
inductive Value where
  /-- Null. -/
  | null
  /-- A boolean. -/
  | boolean (value : Bool)
  /-- A number. -/
  | number (value : Double)
  /-- A string. -/
  | string (value : String)
  /-- A reference to an array. -/
  | array (id : NodeId)
  /-- A reference to an object. -/
  | object (id : NodeId)
  deriving DecidableEq, Repr, Inhabited

/-- The node that a value refers to. -/
def Value.node? : Value → Option NodeId
  | array id | object id => some id
  | _ => none

/-- An object: a shape name and fields in order, each name at most once. -/
structure Object where
  /-- The name of the object's shape. -/
  shape : String
  /-- The fields that are set, in the order they were first set. -/
  fields : List (String × Value) := []
  deriving DecidableEq, Repr, Inhabited

namespace Object

/-- Sets the value of a field in a list of fields. -/
def setField (name : String) (value : Value) : List (String × Value) → List (String × Value)
  | [] => [(name, value)]
  | (key, old) :: fields =>
    if key = name then (key, value) :: fields else (key, old) :: setField name value fields

/-- Sets a field. A field that is set already keeps its place. -/
def set (object : Object) (name : String) (value : Value) : Object :=
  { object with fields := setField name value object.fields }

/-- The value of a field, if it is set. -/
def get? (object : Object) (name : String) : Option Value := object.fields.lookup name

/-- The value of a field; one that is not set reads as null. -/
def get (object : Object) (name : String) : Value := (object.get? name).getD .null

/-- An object with fields set one after another. -/
def ofFields (shape : String) (fields : List (String × Value)) : Object :=
  fields.foldl (fun object (name, value) => object.set name value) { shape := shape }

end Object

/-- A node of a tree. -/
inductive Node where
  /-- An array with its elements. -/
  | array (elements : List Value)
  /-- An object. -/
  | object (content : Object)
  deriving DecidableEq, Repr, Inhabited

/-- The values that a node holds, in order. -/
def Node.children : Node → List Value
  | array elements => elements
  | object content => content.fields.map (·.2)

/-- The nodes that a node refers to, in order. -/
def Node.references (node : Node) : List NodeId := node.children.filterMap Value.node?

/-- An arena of nodes and a root value. -/
structure Tree where
  /-- The nodes; the id of a node is its position. -/
  nodes : Array Node := #[]
  /-- The value that the tree stands for. -/
  root : Value := .null
  deriving DecidableEq, Repr, Inhabited

namespace Tree

/-- The number of nodes. -/
def size (tree : Tree) : Nat := tree.nodes.size

/-- The node of an id. -/
def node? (tree : Tree) (id : NodeId) : Option Node := tree.nodes[id.index]?

/-- The elements of the array of an id. -/
def array? (tree : Tree) (id : NodeId) : Option (List Value) :=
  match tree.node? id with
  | some (.array elements) => some elements
  | _ => none

/-- The object of an id. -/
def object? (tree : Tree) (id : NodeId) : Option Object :=
  match tree.node? id with
  | some (.object content) => some content
  | _ => none

/-- Adds a node. -/
def push (tree : Tree) (node : Node) : NodeId × Tree :=
  (⟨tree.nodes.size⟩, { tree with nodes := tree.nodes.push node })

end Tree

end SyntaxPack
