import SyntaxPack.Module.Basic
/-!
# SyntaxPack.Module.Walk

The walk that fills a module.

Starting from the root, the walk registers every string, object and array it
reaches, and counts how often each is used. A node that is registered already
is not walked again. On its way the walk checks that

* every reference leads to a node of its kind, and every object has a
  registered shape;
* an object has no field that its shape does not declare, unless such fields
  are to be dropped;
* the declared type of a field accepts the tag of its value, and its element
  type the tags of the elements of an array there;

and it infers the element tag of every array.
-/

namespace SyntaxPack

/-! ### Runtime tags -/

/-- The object that a value refers to, which must exist. -/
def Tree.requireObject (tree : Tree) (id : NodeId) : Except Error Object :=
  match tree.object? id with
  | some object => .ok object
  | none => .error (.encode (.danglingNode id.index))

/-- The elements of the array that a value refers to, which must exist. -/
def Tree.requireArray (tree : Tree) (id : NodeId) : Except Error (List Value) :=
  match tree.array? id with
  | some elements => .ok elements
  | none => .error (.encode (.danglingNode id.index))

/-- The shape of a name, with the error of the whole encoder. -/
def Registry.shapeOf (registry : Registry) (name : String) : Except Error ShapeId :=
  (registry.require name).mapError .schema

/-- The shape of an object that a value refers to. -/
def Tree.shapeOf (tree : Tree) (registry : Registry) (id : NodeId) : Except Error ShapeId := do
  registry.shapeOf (← tree.requireObject id).shape

/-- The runtime tag of a number. -/
def Tag.ofNumber (d : Double) : Tag :=
  if d.integerPayload.isSome then .builtin .integer else .builtin .double

/-- The runtime tag of a value. -/
def Tag.of (tree : Tree) (registry : Registry) : Value → Except Error Tag
  | .null => .ok (.builtin .null)
  | .boolean true => .ok (.builtin .trueValue)
  | .boolean false => .ok (.builtin .falseValue)
  | .number d => .ok (.ofNumber d)
  | .string _ => .ok (.builtin .string)
  | .array _ => .ok (.builtin .array)
  | .object id => return .shape (← tree.shapeOf registry id)

/-- Tags in increasing order of their ranks, each one once. -/
def Tag.distinctSorted (tags : List Tag) : List Tag :=
  (tags.mergeSort fun a b => a.rank ≤ b.rank).eraseDups

namespace Module

/-! ### The walk -/

/-- What a walk works on. -/
structure WalkInput where
  /-- The tree that is walked. -/
  tree : Tree
  /-- The shapes of its objects. -/
  registry : Registry
  /-- The configuration of the encoder. -/
  config : EncodingConfig

/-- What a walk has gathered so far. -/
structure WalkState where
  /-- The tables. -/
  module : Module
  /-- The nodes whose walk is complete, the last one first. -/
  finished : List NodeId := []
  deriving DecidableEq, Repr

namespace WalkInput

variable (input : WalkInput)

/-- The runtime tag of a value. -/
def tagOf (value : Value) : Except Error Tag := Tag.of input.tree input.registry value

/-- Fails unless a tag is accepted by a declared type. -/
def checkTag (site : Site) (declared : TypeDecl) (source : String) (tag : Tag) :
    Except Error Unit :=
  if declared.accepts tag then .ok ()
  else .error (.schema (.typeMismatch site source (input.registry.tagName tag)))

/-- Checks the elements of an array against the element type of a field. -/
def checkItems (shape : String) (field : Field) (element : TypeDecl) :
    Nat → List Value → Except Error Unit
  | _, [] => .ok ()
  | index, value :: values => do
    let site := Site.item shape field.name index
    input.checkTag site element field.source (← input.tagOf value)
    checkItems shape field element (index + 1) values

/-- Checks the value of a field, and the elements if it is an array. -/
def checkField (shape : String) (field : Field) (value : Value) : Except Error Unit := do
  input.checkTag (.field shape field.name) field.type field.source (← input.tagOf value)
  match value, field.type.element with
  | .array id, some element =>
    input.checkItems shape field element 0 (← input.tree.requireArray id)
  | _, _ => .ok ()

/-- Fails if an object has a field that its shape does not declare and such
fields are not to be dropped. -/
def checkDeclared (shape : Shape) (object : Object) : Except Error Unit :=
  if input.config.ignoreUnknownFields then .ok ()
  else
    match object.fields.find? fun (name, _) => !shape.declares name with
    | some (name, _) => .error (.schema (.unknownField shape.name name))
    | none => .ok ()

/-- The element tag of an array, given the runtime tags of its elements. -/
def elementTag (array : NodeId) (tags : List Tag) : Except Error Tag :=
  match Tag.unify tags with
  | some tag => .ok tag
  | none =>
    if input.config.anyArrayFallback then .ok (.builtin .any)
    else
      let names := (Tag.distinctSorted tags).map input.registry.tagName
      .error (.encode (.heterogeneousArray array.index names))

/-- Walks the elements of an array in order, and gathers their tags. -/
def visitElements (visit : Value → WalkState → Except Error WalkState) :
    List Value → WalkState → Except Error (List Tag × WalkState)
  | [], state => .ok ([], state)
  | value :: values, state => do
    let state ← visit value state
    let tag ← input.tagOf value
    let (tags, state) ← visitElements visit values state
    .ok (tag :: tags, state)

/-- Checks and walks the fields of an object in the order of their declaration. -/
def visitFields (visit : Value → WalkState → Except Error WalkState) (shape : String)
    (object : Object) : List Field → WalkState → Except Error WalkState
  | [], state => .ok state
  | field :: fields, state => do
    let value := object.get field.name
    input.checkField shape field value
    let state ← visit value state
    visitFields visit shape object fields state

/-- Registers what a value refers to, and walks the values of a new node through
`visit`. -/
def visitValue (visit : Value → WalkState → Except Error WalkState) :
    Value → WalkState → Except Error WalkState
  | .null, state | .boolean _, state | .number _, state => .ok state
  | .string s, state => do
    .ok { state with module := ← (state.module.internString s).mapError .table }
  | .array id, state => do
    let elements ← input.tree.requireArray id
    let (isNew, module) ← (state.module.registerArray id).mapError .table
    let state := { state with module := module }
    if isNew then
      let (tags, state) ← input.visitElements visit elements state
      let tag ← input.elementTag id tags
      .ok ⟨state.module.setElementTag id tag, id :: state.finished⟩
    else .ok state
  | .object id, state => do
    let object ← input.tree.requireObject id
    let shapeId ← input.registry.shapeOf object.shape
    let (isNew, module) ←
      (state.module.registerObject input.registry shapeId id).mapError .table
    let state := { state with module := module }
    if isNew then
      let shape : Shape := ⟨input.registry.shapeName shapeId, input.registry.fields shapeId⟩
      input.checkDeclared shape object
      let state ← input.visitFields visit shape.name object shape.fields state
      .ok { state with finished := id :: state.finished }
    else .ok state

/-- Walks what a value refers to, with at most `depth` values inside one another.
Each but the last one belongs to a node that is newly registered, so one more than
the number of nodes is room enough. -/
def visit : Nat → Value → WalkState → Except Error WalkState
  | 0, _, state => .ok state
  | depth + 1, value, state => input.visitValue (visit depth) value state

/-- Walks a whole tree. The result is the filled module, and the nodes in the
order in which their walks ended: every node of a tree without cycles comes
after those it refers to. -/
def walk : Except Error (Module × List NodeId) := do
  let root := input.tree.root
  let state ← input.visit (input.tree.size + 1) root ⟨.empty input.config, []⟩
  .ok ({ state.module with root := root }, state.finished.reverse)

end WalkInput

end Module

end SyntaxPack
