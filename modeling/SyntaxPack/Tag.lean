/-!
# SyntaxPack.Tag

Tags name the kinds of values. Eleven of them are built in and open the tag
table of every module; each registered shape adds one of its own.

`any`, `boolean`, `number` and `object` only occur in declarations. The others
are *runtime* tags: every value of a tree carries exactly one of those, which
can be written in front of it.
-/

namespace SyntaxPack

/-- Position of a shape in its registry. -/
structure ShapeId where
  /-- The position, from zero. -/
  index : Nat
  deriving DecidableEq, Repr, Inhabited

/-- The tags that every module's tag table starts with, in this order. -/
inductive Builtin where
  /-- Any value at all. -/
  | any
  /-- An array. -/
  | array
  /-- An object of any shape. -/
  | object
  /-- `true` or `false`. -/
  | boolean
  /-- A string. -/
  | string
  /-- A number that is a 32-bit integer. -/
  | integer
  /-- An `integer` or a `double`. -/
  | number
  /-- Null. -/
  | null
  /-- The value `true`. -/
  | trueValue
  /-- The value `false`. -/
  | falseValue
  /-- A number of any other kind. -/
  | double
  deriving DecidableEq, Repr, Inhabited

namespace Builtin

/-- All built-in tags in the order of the tag table. -/
def all : List Builtin :=
  [any, array, object, boolean, string, integer, number, null, trueValue, falseValue, double]

/-- The number of built-in tags; the tags of shapes follow them. -/
def count : Nat := 11

/-- The index that a built-in tag has in every tag table. -/
def seedIndex : Builtin → Nat
  | any => 0
  | array => 1
  | object => 2
  | boolean => 3
  | string => 4
  | integer => 5
  | number => 6
  | null => 7
  | trueValue => 8
  | falseValue => 9
  | double => 10

/-- The name under which a built-in tag stands in the tag table. -/
def name : Builtin → String
  | any => "any"
  | array => "array"
  | object => "object"
  | boolean => "boolean"
  | string => "string"
  | integer => "integer"
  | number => "number"
  | null => "null"
  | trueValue => "true"
  | falseValue => "false"
  | double => "double"

/-- The built-in tag of a name. -/
def ofName? (name : String) : Option Builtin := all.find? (·.name = name)

/-- The built-in tag at an index of the tag table. -/
def ofIndex? (index : Nat) : Option Builtin := all[index]?

@[simp] theorem length_all : all.length = count := rfl

@[simp] theorem ofIndex?_seedIndex (b : Builtin) : ofIndex? b.seedIndex = some b := by
  cases b <;> rfl

theorem seedIndex_lt (b : Builtin) : b.seedIndex < count := by
  cases b <;> decide

end Builtin

/-- A built-in tag or the tag of a shape. -/
inductive Tag where
  /-- One of the eleven built-in tags. -/
  | builtin (tag : Builtin)
  /-- The tag of the objects of a shape. -/
  | shape (id : ShapeId)
  deriving DecidableEq, Repr, Inhabited

namespace Tag

/-- Whether a value can carry this tag, as opposed to a declared kind. -/
def isTerminal : Tag → Bool
  | builtin .any | builtin .boolean | builtin .number | builtin .object => false
  | _ => true

/-- Whether values of this tag are written as references into a table. -/
def isReference : Tag → Bool
  | shape _ | builtin .string | builtin .array | builtin .object => true
  | _ => false

/-- Whether this is the tag of a shape. -/
def isShape : Tag → Bool
  | shape _ => true
  | builtin _ => false

/-- Built-in tags in their order, then the shapes in theirs. -/
def rank : Tag → Nat
  | builtin b => b.seedIndex
  | shape id => Builtin.count + id.index

/-- The index of the value stream for payloads written under a tag, given the
tag index of each shape that has one. Null references to a shape without a tag
share the stream of `object`. -/
def streamIndex (shapeTag : ShapeId → Option Nat) : Tag → Nat
  | builtin b => b.seedIndex
  | shape id => (shapeTag id).getD Builtin.object.seedIndex

end Tag

end SyntaxPack
