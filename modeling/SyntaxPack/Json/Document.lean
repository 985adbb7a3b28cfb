import SyntaxPack.Double.Basic
/-!
# SyntaxPack.Json.Document

JSON documents.

A number is an integer of at most 64 bits, signed or unsigned, or a double. The
properties of an object have distinct names and are kept in increasing order of
their names, so two objects with the same properties are equal.
-/

namespace SyntaxPack

/-- A JSON document. -/
inductive Json where
  /-- Null. -/
  | null
  /-- A boolean. -/
  | boolean (value : Bool)
  /-- A number that is written as an integer. -/
  | integer (value : Int)
  /-- A number that is written with a fraction or an exponent. It is finite. -/
  | float (value : Double)
  /-- A string. -/
  | string (value : String)
  /-- An array. -/
  | array (items : List Json)
  /-- An object, its properties in increasing order of their names. -/
  | object (properties : List (String × Json))
  deriving Repr, Inhabited

namespace Json

/-- The properties of an object. -/
abbrev Properties := List (String × Json)

namespace Properties

/-- Sets a property in place of any of the same name. -/
def insert (name : String) (value : Json) : Properties → Properties
  | [] => [(name, value)]
  | (key, old) :: properties =>
    if name < key then (name, value) :: (key, old) :: properties
    else if name = key then (name, value) :: properties
    else (key, old) :: insert name value properties

/-- The properties set one after another: the last one of a name counts. -/
def ofList (properties : List (String × Json)) : Properties :=
  properties.foldl (fun sorted (name, value) => insert name value sorted) []

end Properties

/-- An object with properties set one after another. -/
def ofProperties (properties : List (String × Json)) : Json :=
  .object (Properties.ofList properties)

/-- The JSON form of a number: an integer if it is one of the 32-bit integers or
an integer below nine quadrillions, else a double. Negative zero is no integer,
and what is not finite has no form but null. -/
def ofNumber (d : Double) : Json :=
  match d.integerPayload with
  | some i => .integer i
  | none =>
    match d.exactInt? with
    | some i => if i.natAbs < 9000000000000000 then .integer i else .float d
    | none => if d.isFinite then .float d else .null

/-! ### Places

A place inside a document is the chain of steps that leads from its root to one of its
values. Errors name places in this form. -/

/-- One step into a document. -/
inductive Step where
  /-- To a property of an object. -/
  | property (name : String)
  /-- To an item of an array. -/
  | item (index : Nat)
  deriving DecidableEq, Repr, Inhabited

/-- The text of a step. -/
def Step.render : Step → String
  | property name => s!".{name}"
  | item index => s!"[{index}]"

/-- The steps from the root of a document to a value, the first one first. -/
abbrev Path := List Step

/-- The text of a path: `$` for the root, then every step. -/
def Path.render (path : Path) : String := "$" ++ String.join (path.map Step.render)

end Json

end SyntaxPack
