import SyntaxPack.Tag
/-!
# SyntaxPack.Shape.TypeDecl

Declared field types.

A declaration says which runtime tags a field's value may carry (`accepts`)
and, where it declares an array with an element type, which tags the elements
may carry (`element`). Both look at one level only: what an element type says
about the elements of nested arrays is not part of either.
-/

namespace SyntaxPack

/-- A declared type. -/
inductive TypeDecl where
  /-- Every value. -/
  | any
  /-- Only null. -/
  | null
  /-- `true` or `false`. -/
  | boolean
  /-- A number that is a 32-bit integer. -/
  | integer
  /-- Every number; integers are stored as doubles. -/
  | double
  /-- Every number. -/
  | number
  /-- A string. -/
  | string
  /-- An object of any shape. -/
  | object
  /-- An array without a constraint on its elements. -/
  | array
  /-- An array whose elements have a declared type. -/
  | arrayOf (element : TypeDecl)
  /-- An object of one shape. -/
  | shape (id : ShapeId)
  /-- Null, or a value of another type. -/
  | nullable (inner : TypeDecl)
  /-- A value of any of several types. -/
  | union (members : List TypeDecl)
  deriving Repr, Inhabited

namespace TypeDecl

/-- Admits null. `any`, `null` and a type that is nullable already stay as they
are. -/
def orNull : TypeDecl → TypeDecl
  | any => any
  | null => null
  | nullable inner => nullable inner
  | other => nullable other

/-- Takes one level of nullability off, and tells whether there was one. -/
def splitNullable : TypeDecl → TypeDecl × Bool
  | nullable inner => (inner, true)
  | other => (other, false)

mutual

/-- Whether a value whose runtime tag is `tag` conforms to a type, the elements
of arrays left aside. -/
def accepts : TypeDecl → Tag → Bool
  | any, _ => true
  | null, tag => tag = .builtin .null
  | boolean, tag => tag = .builtin .trueValue || tag = .builtin .falseValue
  | integer, tag => tag = .builtin .integer
  | double, tag | number, tag => tag = .builtin .integer || tag = .builtin .double
  | string, tag => tag = .builtin .string
  | object, tag => tag.isShape
  | array, tag | arrayOf _, tag => tag = .builtin .array
  | shape id, tag => tag = .shape id
  | nullable inner, tag => tag = .builtin .null || inner.accepts tag
  | union members, tag => someAccepts members tag

/-- Whether some type of a list accepts a tag. -/
def someAccepts : List TypeDecl → Tag → Bool
  | [], _ => false
  | member :: members, tag => member.accepts tag || someAccepts members tag

end

mutual

/-- The declared type of the elements of an array that conforms to a type, if it
has one. In a union the first member that declares one decides. -/
def element : TypeDecl → Option TypeDecl
  | arrayOf element => some element
  | nullable inner => inner.element
  | union members => firstElement members
  | _ => none

/-- The element type of the first type of a list that declares one. -/
def firstElement : List TypeDecl → Option TypeDecl
  | [] => none
  | member :: members => member.element <|> firstElement members

end

@[simp] theorem someAccepts_eq_any (members : List TypeDecl) (tag : Tag) :
    someAccepts members tag = members.any (·.accepts tag) := by
  induction members with
  | nil => rfl
  | cons member members ih => simp [someAccepts, ih]

@[simp] theorem firstElement_eq_findSome? (members : List TypeDecl) :
    firstElement members = members.findSome? element := by
  induction members with
  | nil => rfl
  | cons member members ih =>
    simp only [firstElement, ih, List.findSome?_cons]
    cases member.element <;> rfl

end TypeDecl

end SyntaxPack
