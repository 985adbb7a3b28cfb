import SyntaxPack.Error
import SyntaxPack.Shape.Declaration
/-!
# SyntaxPack.Shape.Registry

Shapes and the registries that hold them.

A registry gives every shape name its list of declared fields. `Registry.build`
turns a plain description into a registry and checks all of it: shape names
first, then every field of every shape. Declarations may name shapes that come
later in the description.
-/

namespace SyntaxPack

/-- A declared field. -/
structure Field where
  /-- The name of the field. -/
  name : String
  /-- The declaration as it was written. -/
  source : String
  /-- The declared type. -/
  type : TypeDecl
  deriving Repr, Inhabited

/-- A type name with its declared fields. -/
structure Shape where
  /-- The type name. -/
  name : String
  /-- The fields, in the order of their declaration. -/
  fields : List Field
  deriving Repr, Inhabited

namespace Shape

/-- Whether a shape declares a field of a name. -/
def declares (shape : Shape) (field : String) : Bool := shape.fields.any (·.name = field)

/-- The names of the declared fields. -/
def fieldNames (shape : Shape) : List String := shape.fields.map (·.name)

end Shape

/-- The shapes that trees are built from. -/
structure Registry where
  /-- The property that carries an object's shape in documents. -/
  typeKey : String
  /-- The shapes, in the order of their registration. -/
  shapes : List Shape
  deriving Repr, Inhabited

namespace Registry

/-- The shape of a name. -/
def lookup (registry : Registry) (name : String) : Option ShapeId :=
  (registry.shapes.findIdx? (·.name = name)).map ShapeId.mk

/-- The shape of a name, which must be registered. -/
def require (registry : Registry) (name : String) : Except SchemaError ShapeId :=
  match registry.lookup name with
  | some id => .ok id
  | none => .error (.unknownShape name)

/-- The shape at a position. -/
def get? (registry : Registry) (id : ShapeId) : Option Shape := registry.shapes[id.index]?

/-- The name of the shape at a position. -/
def shapeName (registry : Registry) (id : ShapeId) : String :=
  (registry.get? id).elim "" (·.name)

/-- The declared fields of the shape at a position. -/
def fields (registry : Registry) (id : ShapeId) : List Field :=
  (registry.get? id).elim [] (·.fields)

/-- All shape ids, in order. -/
def ids (registry : Registry) : List ShapeId := (List.range registry.shapes.length).map ShapeId.mk

/-- The name of a tag. -/
def tagName (registry : Registry) : Tag → String
  | .builtin b => b.name
  | .shape id => registry.shapeName id

end Registry

/-! ### Building -/

/-- A field as it is described: its name and the text of its declared type. -/
structure FieldDescription where
  /-- The name of the field. -/
  name : String
  /-- The text of its declared type. -/
  type : String
  deriving DecidableEq, Repr, Inhabited

/-- A shape as it is described. -/
structure ShapeDescription where
  /-- The type name. -/
  name : String
  /-- The fields, in order. -/
  fields : List FieldDescription
  deriving DecidableEq, Repr, Inhabited

/-- A registry as it is described. -/
structure RegistryDescription where
  /-- The property that carries an object's shape in documents. -/
  typeKey : String := "type"
  /-- The shapes, in order. -/
  shapes : List ShapeDescription := []
  deriving DecidableEq, Repr, Inhabited

namespace RegistryDescription

/-- The shape of a name among those of a description. -/
def lookup (description : RegistryDescription) (name : String) : Option ShapeId :=
  (description.shapes.findIdx? (·.name = name)).map ShapeId.mk

/-- Checks shape names from the first to the last: none is that of a built-in
tag, and none occurs among the names before it. -/
def checkNames (before : List String) : List String → Except SchemaError Unit
  | [] => .ok ()
  | name :: names =>
    if (Builtin.ofName? name).isSome then .error (.reservedShapeName name)
    else if before.contains name then .error (.duplicateShape name)
    else checkNames (name :: before) names

/-- Checks one field of a shape, given the names of the fields before it. -/
def buildField (description : RegistryDescription) (shape : String) (before : List String)
    (field : FieldDescription) : Except SchemaError Field :=
  if field.name = description.typeKey then .error (.typeKeyCollision shape field.name)
  else if before.contains field.name then .error (.duplicateField shape field.name)
  else
    match Declaration.parse description.lookup field.type with
    | .ok type => .ok ⟨field.name, field.type, type⟩
    | .error fault => .error (.invalidDeclaration shape field.name field.type fault)

/-- Checks the fields of a shape from the first to the last. -/
def buildFields (description : RegistryDescription) (shape : String) (before : List String) :
    List FieldDescription → Except SchemaError (List Field)
  | [] => .ok []
  | field :: fields => do
    let head ← description.buildField shape before field
    let tail ← description.buildFields shape (field.name :: before) fields
    .ok (head :: tail)

/-- Checks one shape. -/
def buildShape (description : RegistryDescription) (shape : ShapeDescription) :
    Except SchemaError Shape := do
  .ok ⟨shape.name, ← description.buildFields shape.name [] shape.fields⟩

/-- Checks a description, and gives the registry it describes. -/
def build (description : RegistryDescription) : Except SchemaError Registry := do
  checkNames [] (description.shapes.map (·.name))
  .ok ⟨description.typeKey, ← description.shapes.mapM description.buildShape⟩

end RegistryDescription

end SyntaxPack
