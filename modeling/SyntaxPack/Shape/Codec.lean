import SyntaxPack.Shape.Registry
/-!
# SyntaxPack.Shape.Codec

How one slot, a field or an array element, is laid out.

A slot whose declaration settles the kind of its value needs no tag; only the
others pay for one. `Codec.ofDecl` chooses the layout of a field from its
declaration. Arrays declare nothing themselves: `Tag.unify` infers one tag for
all elements of an array, and `Codec.ofElement` gives their layout.
-/

namespace SyntaxPack

/-- The layout of a slot. -/
inductive Codec where
  /-- A tag, then the value under that tag. The declaration tells which tags may
  stand there. -/
  | tagged (decl : TypeDecl)
  /-- The value alone, under a fixed tag. If it is nullable, null is written as
  an absent reference. -/
  | fixed (tag : Tag) (nullable : Bool)
  deriving Repr, Inhabited

namespace Codec

/-- Whether a slot of this layout starts with a tag. -/
def isTagged : Codec → Bool
  | tagged _ => true
  | fixed _ _ => false

/-- The layout of a field. With one table per shape, an object of any shape
needs a tag, which tells the table. -/
def ofDecl (decl : TypeDecl) (partitioned : Bool) : Codec :=
  let (inner, nullable) := decl.splitNullable
  match inner with
  | .string => fixed (.builtin .string) nullable
  | .array | .arrayOf _ => fixed (.builtin .array) nullable
  | .shape id => fixed (.shape id) nullable
  | .null => fixed (.builtin .null) nullable
  | .object => if partitioned then tagged decl else fixed (.builtin .object) nullable
  | .integer => if nullable then tagged decl else fixed (.builtin .integer) false
  | .double => if nullable then tagged decl else fixed (.builtin .double) false
  | _ => tagged decl

/-- The layout of the elements of an array with an element tag. -/
def ofElement (tag : Tag) (partitioned : Bool) : Codec :=
  match tag with
  | .builtin .trueValue | .builtin .falseValue => fixed tag false
  | .builtin .any => ofDecl .any partitioned
  | .builtin .null => ofDecl .null partitioned
  | .builtin .boolean => ofDecl .boolean partitioned
  | .builtin .number => ofDecl .number partitioned
  | .builtin .integer => ofDecl .integer partitioned
  | .builtin .double => ofDecl .double partitioned
  | .builtin .string => ofDecl (.nullable .string) partitioned
  | .builtin .array => ofDecl (.nullable .array) partitioned
  | .builtin .object => ofDecl (.nullable .object) partitioned
  | .shape id => ofDecl (.nullable (.shape id)) partitioned

end Codec

/-- The layouts of the fields of every shape, by shape and by field. -/
def Registry.fieldCodecs (registry : Registry) (partitioned : Bool) : List (List Codec) :=
  registry.shapes.map fun shape => shape.fields.map fun field => Codec.ofDecl field.type partitioned

/-! ### The common tag of elements -/

/-- The tag that the values of several runtime tags share, none if only `any`
covers them. No tags at all share `any`. Shapes share `object`, which null may
join; the two booleans share `boolean` and the two kinds of numbers `number`,
which null may not. -/
def Tag.unify (tags : List Tag) : Option Tag :=
  let hasNull := tags.contains (.builtin .null)
  match (tags.filter (· ≠ .builtin .null)).eraseDups with
  | [] => some (if hasNull then .builtin .null else .builtin .any)
  | [only] => if hasNull && !only.isReference then none else some only
  | distinct =>
    if distinct.all Tag.isShape then some (.builtin .object)
    else if hasNull then none
    else if distinct.all fun t => t = .builtin .trueValue || t = .builtin .falseValue then
      some (.builtin .boolean)
    else if distinct.all fun t => t = .builtin .integer || t = .builtin .double then
      some (.builtin .number)
    else none

end SyntaxPack
