import SyntaxPack.IndexEncoding
import SyntaxPack.Json.Document
import SyntaxPack.Shape.Declaration
import SyntaxPack.Text
import SyntaxPack.Utf8
/-!
# SyntaxPack.Error

What can go wrong, in four families:

* `DecodeError`: the bytes of a module are malformed;
* `EncodeError`: a tree cannot be laid out under a configuration;
* `SchemaError`: shapes are ill-formed, or a value does not conform to its shape;
* `TableError`: an interning table is used against its rules.

Constructors are causes. The wording of every family is in its `message`.
-/

namespace SyntaxPack

/-! ### Tables -/

/-- Errors of the operations on tables. Names stand here as they are shown. -/
inductive TableError where
  /-- A name was added again with a different value. -/
  | divergent (table name : String)
  /-- The table was changed after finalization. -/
  | finalized (table : String)
  /-- Indices were asked for before finalization. -/
  | notFinalized (table : String)
  /-- An entry that was merged into another one was used as such. -/
  | invalidated (table : String) (entry : Nat)
  /-- The table has no entry of this name. -/
  | unknownName (table name : String)
  /-- Both sides of a merge are the same entry. -/
  | selfDedupe (table name : String)
  /-- A live entry was left out of finalization. -/
  | unindexed (table name : String)
  deriving DecidableEq, Repr, Inhabited

/-- The wording of a table error. -/
def TableError.message : TableError → String
  | divergent table name => s!"Table `{table}` already holds a different value under name {name}."
  | finalized table => s!"Table `{table}` is finalized and cannot be modified."
  | notFinalized table =>
    s!"Table `{table}` has not been finalized yet; indices are not assigned."
  | invalidated table entry =>
    s!"Entry #{entry} of table `{table}` was deduplicated away and cannot be used."
  | unknownName table name => s!"Table `{table}` has no entry named {name}."
  | selfDedupe table name => s!"Cannot deduplicate {name} of table `{table}` into itself."
  | unindexed table name =>
    s!"Entry {name} of table `{table}` has no index (it is written in place)."

/-! ### Shapes -/

/-- The place of a value in a tree. -/
inductive Site where
  /-- The root of the tree. -/
  | root
  /-- A field of an object. -/
  | field (shape field : String)
  /-- An element of the array that a field of an object holds. -/
  | item (shape field : String) (index : Nat)
  /-- An element of the array with a node id. -/
  | element (array : Nat)
  deriving DecidableEq, Repr, Inhabited

/-- The name shown for the shape at a site. -/
def Site.shapeText : Site → String
  | root => "<root>"
  | field shape _ | item shape _ _ => shape
  | element array => s!"array #{array}"

/-- The name shown for the field at a site. -/
def Site.fieldText : Site → String
  | root => "<root>"
  | field _ name => name
  | item _ name index => s!"{name}[{index}]"
  | element _ => "<element>"

/-- Errors of shape validation, and of values that do not conform to a shape. -/
inductive SchemaError where
  /-- No shape has this name. -/
  | unknownShape (name : String)
  /-- An object has a field that its shape does not declare. -/
  | unknownField (shape field : String)
  /-- The declared type of a slot does not accept the tag of its value. -/
  | typeMismatch (site : Site) (expected found : String)
  /-- A slot holds the tag `any` where the tag of its value is needed. -/
  | anyAsTerminal (offset : Nat)
  /-- The text of a declared type is malformed. -/
  | invalidDeclaration (shape field decl : String) (fault : Declaration.Fault)
  /-- Two shapes have this name. -/
  | duplicateShape (name : String)
  /-- Two fields of a shape have the same name. -/
  | duplicateField (shape field : String)
  /-- A shape has the name of a built-in tag. -/
  | reservedShapeName (name : String)
  /-- A shape declares a field with the name of the registry's type key. -/
  | typeKeyCollision (shape key : String)
  /-- An object of a document has no string under the type key. -/
  | untypedObject (path : Json.Path) (typeKey : String)
  deriving DecidableEq, Repr, Inhabited

/-- The wording of a schema error. -/
def SchemaError.message : SchemaError → String
  | unknownShape name => s!"No shape is registered for type `{name}`."
  | unknownField shape field => s!"Field `{field}` is not declared by shape `{shape}`."
  | typeMismatch site expected found =>
    s!"Field `{site.fieldText}` of `{site.shapeText}` is declared `{expected}` " ++
      s!"but holds a `{found}` value."
  | anyAsTerminal offset =>
    s!"Tag `any` cannot be the resolved type of a value (byte offset {offset})."
  | invalidDeclaration shape field decl fault =>
    s!"Invalid declared type `{decl}` for field `{field}` of `{shape}`: {fault.message}"
  | duplicateShape name => s!"Shape `{name}` is registered more than once."
  | duplicateField shape field => s!"Field `{field}` appears more than once in shape `{shape}`."
  | reservedShapeName name => s!"Shape name `{name}` is reserved for a builtin tag."
  | typeKeyCollision shape key =>
    s!"Shape `{shape}` declares field `{key}`, which is the registry's type key."
  | untypedObject path typeKey =>
    s!"Unsupported value at `{path.render}`: object without a string `{typeKey}` property"

/-! ### Encoding -/

/-- Errors of building and writing a module. -/
inductive EncodeError where
  /-- The elements of an array have no common tag, and `any` is not allowed. -/
  | heterogeneousArray (array : Nat) (tags : List String)
  /-- A token does not fit into the index encoding. -/
  | indexOverflow (table : String) (index : Nat) (encoding : IndexEncoding)
  /-- A value refers to a node of another kind, or to none. -/
  | danglingNode (node : Nat)
  /-- A count or a length does not fit into 32 bits. -/
  | sectionTooLarge (label : String) (length : Nat)
  /-- An object would have to be written in place inside itself. -/
  | endlessObject (node : Nat)
  deriving DecidableEq, Repr, Inhabited

/-- The wording of an encoding error. -/
def EncodeError.message : EncodeError → String
  | heterogeneousArray array tags =>
    let tags := ", ".intercalate tags
    s!"Array #{array} mixes incompatible element tags ({tags}) and the `any` fallback is disabled."
  | indexOverflow table index encoding =>
    s!"Index {index} of table `{table}` exceeds the {encoding.width} index limit " ++
      s!"of {encoding.maxToken}."
  | danglingNode node => s!"Value refers to node #{node} which does not exist in the tree."
  | sectionTooLarge label length =>
    s!"Section `{label}` is too large to be described by a 32-bit length ({length})."
  | endlessObject node => s!"Object #{node} cannot be written in place inside itself."

/-! ### Decoding -/

/-- Where a tag appeared that is of no use there. -/
inductive TagContext where
  /-- In the built-in part of the tag table. -/
  | builtinSeed
  /-- As the shape of a partitioned object table. -/
  | tableDirectory
  /-- In front of an entry of an object table. -/
  | tableEntry
  /-- In front of a value whose declared type does not accept it. -/
  | declaredType
  /-- In front of an object slot. -/
  | slotMarker
  /-- As the tag of a value, though it only names a declared kind. -/
  | declaredKind
  deriving DecidableEq, Repr, Inhabited

/-- The wording of a context. -/
def TagContext.message : TagContext → String
  | builtinSeed => "builtin tag seed"
  | tableDirectory => "object table directory"
  | tableEntry => "object table entry"
  | declaredType => "not accepted by the declared type"
  | slotMarker => "object slot marker"
  | declaredKind => "declared kind used as a value tag"

/-- What is wrong with the value stream of a tag. -/
inductive StreamProblem where
  /-- It is stored more than once. -/
  | repeated
  /-- It is read but not stored. -/
  | undeclared
  deriving DecidableEq, Repr, Inhabited

/-- The wording of a problem with a value stream. -/
def StreamProblem.message : StreamProblem → String
  | repeated => "declared more than once"
  | undeclared => "read but never declared"

/-- Errors of reading a module. Offsets count bytes from its start. -/
inductive DecodeError where
  /-- The bytes do not start with the signature. -/
  | badMagic
  /-- The module has another format name. -/
  | formatMismatch (expected found : String)
  /-- The header names no known index encoding. -/
  | unknownIndexEncoding (byte : UInt8)
  /-- The header has flags beyond the known ones. -/
  | unknownFlags (flags : UInt8)
  /-- A read needs more bytes than are left. -/
  | unexpectedEnd (offset needed available : Nat)
  /-- A base-128 number has too many bits. -/
  | malformedVarint (offset : Nat)
  /-- The two lengths around a substream differ. -/
  | substreamLengthMismatch (offset header footer : Nat)
  /-- A section has bytes left after its content. -/
  | trailingBytes (label : String) (offset remaining : Nat)
  /-- A string is not well-formed text. -/
  | invalidUtf8 (offset : Nat) (fault : Utf8.Fault)
  /-- An index points past the end of a table. -/
  | indexOutOfRange (table : String) (index length offset : Nat)
  /-- A section counts other entries than the directory. -/
  | countMismatch (label : String) (expected found : Nat)
  /-- An object has another shape than its table or its field requires. -/
  | shapeMismatch (table expected found : String) (index : Nat)
  /-- A tag appeared where it is of no use. -/
  | unexpectedTag (tag : String) (offset : Nat) (context : TagContext)
  /-- A null reference appeared where a value is required. -/
  | unexpectedNull (offset : Nat) (expected : String)
  /-- An integer payload has more than 32 bits. -/
  | integerOutOfRange (offset : Nat)
  /-- A node refers back to itself. -/
  | cyclicReference (node : Nat)
  /-- A value stream is stored twice, or missing. -/
  | valueStream (tag : Nat) (problem : StreamProblem)
  deriving DecidableEq, Repr, Inhabited

/-- The wording of a decoding error. -/
def DecodeError.message : DecodeError → String
  | badMagic => "Not a hyast module: the magic bytes do not match."
  | formatMismatch expected found =>
    s!"Unsupported module format `{found}`, expected `{expected}`."
  | unknownIndexEncoding byte =>
    s!"Unknown index encoding 0x{Text.hex 2 byte.toNat} in the module header."
  | unknownFlags flags =>
    s!"Unknown header flags 0b{Text.binary 8 flags.toNat} in the module header."
  | unexpectedEnd offset needed available =>
    s!"Unexpected end of data at byte offset {offset}: needed {needed} byte(s) " ++
      s!"but only {available} remain."
  | malformedVarint offset => s!"Malformed varint at byte offset {offset}."
  | substreamLengthMismatch offset header footer =>
    s!"Substream starting at byte offset {offset} declares {header} byte(s) " ++
      s!"but its footer says {footer}."
  | trailingBytes label offset remaining =>
    s!"Section `{label}` has {remaining} unread byte(s) at offset {offset}."
  | invalidUtf8 offset fault => s!"Invalid UTF-8 in string at byte offset {offset}: {fault.message}"
  | indexOutOfRange table index length offset =>
    s!"Index {index} is out of range for table `{table}` of length {length} " ++
      s!"(byte offset {offset})."
  | countMismatch label expected found =>
    s!"Section `{label}` holds {found} entries but the directory declares {expected}."
  | shapeMismatch table expected found index =>
    s!"Entry {index} of object table `{table}` has shape `{found}` where `{expected}` is required."
  | unexpectedTag tag offset context =>
    s!"Tag `{tag}` is not valid at byte offset {offset} ({context.message})."
  | unexpectedNull offset expected =>
    s!"Null reference at byte offset {offset} where `{expected}` is required."
  | integerOutOfRange offset =>
    s!"Integer payload at byte offset {offset} does not fit in 32 bits."
  | cyclicReference node => s!"Node #{node} is reachable from itself."
  | valueStream tag problem => s!"Value stream for tag index {tag} is {problem.message}."

/-! ### All families -/

/-- An error of any family. -/
inductive Error where
  /-- The bytes of a module are malformed. -/
  | decode (error : DecodeError)
  /-- A tree cannot be laid out. -/
  | encode (error : EncodeError)
  /-- Shapes are ill-formed, or a value does not conform to its shape. -/
  | schema (error : SchemaError)
  /-- A table is used against its rules. -/
  | table (error : TableError)
  deriving DecidableEq, Repr, Inhabited

/-- The wording of an error. -/
def Error.message : Error → String
  | decode error => error.message
  | encode error => error.message
  | schema error => error.message
  | table error => error.message

end SyntaxPack
