import SyntaxPack.Json.Document
import SyntaxPack.Shape.Registry
import SyntaxPack.Tree.Basic
/-!
# SyntaxPack.Tree.Interchange

Trees as JSON documents.

An object of a document is a shaped object: the property under the registry's
type key names its shape, and the others are its fields. Declared fields come
first, in the order of their declaration, and the rest follow in the order of
their names; whether those are allowed is for the encoder to say. Towards a
document a shared node is written out once per reference.
-/

namespace SyntaxPack

namespace Tree

/-! ### From documents -/

/-- Builds the value of a part of a document, whose place in the document is
given, on top of the nodes built so far. -/
abbrev Builder := Json.Path → Array Node → Except SchemaError (Value × Array Node)

/-- Builds the items of an array from the first to the last. -/
def buildItems (path : Json.Path) :
    Nat → List Builder → Array Node → Except SchemaError (List Value × Array Node)
  | _, [], nodes => .ok ([], nodes)
  | index, builder :: builders, nodes => do
    let (value, nodes) ← builder (path ++ [.item index]) nodes
    let (values, nodes) ← buildItems path (index + 1) builders nodes
    .ok (value :: values, nodes)

/-- Builds the properties of the given names, as far as there are any. -/
def buildProperties (path : Json.Path) (properties : List (String × Builder)) :
    List String → Array Node → Except SchemaError (List (String × Value) × Array Node)
  | [], nodes => .ok ([], nodes)
  | name :: names, nodes =>
    match properties.lookup name with
    | none => buildProperties path properties names nodes
    | some builder => do
      let (value, nodes) ← builder (path ++ [.property name]) nodes
      let (fields, nodes) ← buildProperties path properties names nodes
      .ok ((name, value) :: fields, nodes)

/-- The order in which the properties of an object become fields: declared ones
first, then the others except for the type key. -/
def fieldOrder (typeKey : String) (declared names : List String) : List String :=
  declared ++ names.filter fun name => name ≠ typeKey && !declared.contains name

/-- Adds a node, and refers to it. -/
def pushAs (reference : NodeId → Value) (node : Node) (nodes : Array Node) : Value × Array Node :=
  (reference ⟨nodes.size⟩, nodes.push node)

/-- Builds an object, given the text under the type key. -/
def buildObject (registry : Registry) (typeName : Option String)
    (properties : List (String × Builder)) : Builder := fun path nodes =>
  match typeName with
  | none => .error (.untypedObject path registry.typeKey)
  | some shape => do
    let declared := (registry.fields (← registry.require shape)).map (·.name)
    let names := fieldOrder registry.typeKey declared (properties.map (·.1))
    let (fields, nodes) ← buildProperties path properties names nodes
    .ok (pushAs .object (.object (Object.ofFields shape fields)) nodes)

/-- The text under the type key of an object. -/
def typeName? (registry : Registry) (properties : List (String × Json)) : Option String :=
  match properties.lookup registry.typeKey with
  | some (.string name) => some name
  | _ => none

mutual

/-- What builds the value of a document. -/
def builder (registry : Registry) : Json → Builder
  | .null => fun _ nodes => .ok (.null, nodes)
  | .boolean value => fun _ nodes => .ok (.boolean value, nodes)
  | .integer value => fun _ nodes => .ok (.number (Double.ofInt value), nodes)
  | .float value => fun _ nodes => .ok (.number value, nodes)
  | .string value => fun _ nodes => .ok (.string value, nodes)
  | .array items => fun path nodes => do
    let (values, nodes) ← buildItems path 0 (itemBuilders registry items) nodes
    .ok (pushAs .array (.array values) nodes)
  | .object properties =>
    buildObject registry (typeName? registry properties) (propertyBuilders registry properties)

/-- What builds the items of an array. -/
def itemBuilders (registry : Registry) : List Json → List Builder
  | [] => []
  | item :: items => builder registry item :: itemBuilders registry items

/-- What builds the properties of an object. -/
def propertyBuilders (registry : Registry) : List (String × Json) → List (String × Builder)
  | [] => []
  | (name, value) :: properties =>
    (name, builder registry value) :: propertyBuilders registry properties

end

@[simp] theorem itemBuilders_eq_map (registry : Registry) (items : List Json) :
    itemBuilders registry items = items.map (builder registry) := by
  induction items with
  | nil => rfl
  | cons item items ih => simp [itemBuilders, ih]

@[simp] theorem propertyBuilders_eq_map (registry : Registry) (properties : List (String × Json)) :
    propertyBuilders registry properties =
      properties.map fun (name, value) => (name, builder registry value) := by
  induction properties with
  | nil => rfl
  | cons property properties ih => simp [propertyBuilders, ih]

/-- The tree of a document. -/
def ofJson (registry : Registry) (json : Json) : Except SchemaError Tree := do
  let (root, nodes) ← builder registry json [] #[]
  .ok ⟨nodes, root⟩

/-! ### To documents -/

/-- The document of a value. At most `depth` nodes are written inside one
another; without cycles, the number of nodes is room enough. A reference that
leads to no node is written as null. -/
def valueToJson (tree : Tree) (typeKey : String) : Nat → Value → Json
  | _, .null => .null
  | _, .boolean value => .boolean value
  | _, .number value => Json.ofNumber value
  | _, .string value => .string value
  | 0, .array _ | 0, .object _ => .null
  | depth + 1, .array id | depth + 1, .object id =>
    match tree.node? id with
    | some (.array elements) => .array (elements.map (valueToJson tree typeKey depth))
    | some (.object object) =>
      .ofProperties <| (typeKey, .string object.shape) ::
        object.fields.map fun (name, value) => (name, valueToJson tree typeKey depth value)
    | none => .null

/-- The document of a tree without cycles. -/
def toJson (registry : Registry) (tree : Tree) : Json :=
  valueToJson tree registry.typeKey tree.size tree.root

end Tree

end SyntaxPack
