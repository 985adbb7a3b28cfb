import SyntaxPack.Shape.TypeDecl
/-!
# SyntaxPack.Shape.Declaration

The text of a declared type.

```text
decl   := member ( '|' member )*
member := name ( '[]' | '?' )*
name   := built-in kind | shape name
```

Blanks may stand between tokens. Suffixes apply from left to right, so
`Expr?[]` is an array of nullable expressions and `Expr[]?` a nullable array of
expressions. A text is first cut into lexemes, each of which keeps the text
from its start on for messages; the grammar is then read off the lexemes in one
pass.
-/

namespace SyntaxPack

/-- Whether a character has the Unicode property `White_Space`. Such characters
separate the tokens of a declared type, and none of them is part of a name. -/
def Text.isBlank (c : Char) : Bool :=
  let n := c.toNat
  (0x09 ≤ n && n ≤ 0x0D) || n = 0x20 || n = 0x85 || n = 0xA0 || n = 0x1680 ||
    (0x2000 ≤ n && n ≤ 0x200A) || n = 0x2028 || n = 0x2029 || n = 0x202F || n = 0x205F ||
    n = 0x3000

namespace Declaration

/-- Why a text declares no type. -/
inductive Fault where
  /-- A type name is missing; `found` is the character in its place. -/
  | nameExpected (found : Option Char)
  /-- `true` and `false` are values. -/
  | valueName (name : String)
  /-- No shape has this name. -/
  | unknownShape (name : String)
  /-- The declaration is complete but the text goes on. -/
  | unexpected (rest : String)
  deriving DecidableEq, Repr, Inhabited

/-- The wording of a fault. -/
def Fault.message : Fault → String
  | nameExpected (some c) => s!"expected a type name, found `{c}`"
  | nameExpected none => "expected a type name"
  | valueName name => s!"`{name}` is a value, not a type"
  | unknownShape name => s!"unknown shape `{name}`"
  | unexpected rest => s!"unexpected `{rest}`"

/-! ### Lexemes -/

/-- A token of a declaration. -/
inductive Token where
  /-- A longest run of characters other than blanks and `|?[]`. -/
  | name (chars : List Char)
  /-- The suffix `[]`. -/
  | brackets
  /-- The suffix `?`. -/
  | question
  /-- The separator `|`. -/
  | bar
  /-- A bracket that is no part of `[]`. -/
  | strayBracket
  deriving DecidableEq, Repr, Inhabited

/-- A token and the text from its first character on. -/
structure Lexeme where
  /-- The token. -/
  token : Token
  /-- The text that starts with it. -/
  text : List Char
  deriving DecidableEq, Repr, Inhabited

/-- Whether a character may be part of a name. -/
def isNameChar (c : Char) : Bool := c ∉ ['|', '?', '[', ']'] && !Text.isBlank c

/-- Puts a character in front of the lexemes of the text after it. It extends a
name that starts right there. -/
def consNameChar (c : Char) (after : List Char) (lexemes : List Lexeme) : List Lexeme :=
  match after.head?.any isNameChar, lexemes with
  | true, ⟨.name chars, _⟩ :: others => ⟨.name (c :: chars), c :: after⟩ :: others
  | _, lexemes => ⟨.name [c], c :: after⟩ :: lexemes

/-- The lexemes of a text. -/
def lexemes : List Char → List Lexeme
  | [] => []
  | '[' :: ']' :: after => ⟨.brackets, '[' :: ']' :: after⟩ :: lexemes after
  | c :: after =>
    if isNameChar c then consNameChar c after (lexemes after)
    else if c = '?' then ⟨.question, c :: after⟩ :: lexemes after
    else if c = '|' then ⟨.bar, c :: after⟩ :: lexemes after
    else if Text.isBlank c then lexemes after
    else ⟨.strayBracket, c :: after⟩ :: lexemes after

/-! ### Types -/

/-- The type that a name stands for. -/
def resolve (lookup : String → Option ShapeId) (name : String) : Except Fault TypeDecl :=
  match name with
  | "any" => .ok .any
  | "null" => .ok .null
  | "boolean" => .ok .boolean
  | "integer" => .ok .integer
  | "double" => .ok .double
  | "number" => .ok .number
  | "string" => .ok .string
  | "object" => .ok .object
  | "array" => .ok .array
  | "true" | "false" => .error (.valueName name)
  | name =>
    match lookup name with
    | some id => .ok (.shape id)
    | none => .error (.unknownShape name)

/-- One member is itself; several form a union. -/
def ofMembers : List TypeDecl → TypeDecl
  | [member] => member
  | members => .union members

/-- The fault of a missing name in front of the given lexemes. -/
def missingName (lexemes : List Lexeme) : Fault :=
  .nameExpected (lexemes.head?.bind (·.text.head?))

/-- Reads on after a member's name and some of its suffixes. `before` holds the
members that are complete, the last one first. -/
def parseAfter (lookup : String → Option ShapeId) (before : List TypeDecl) (member : TypeDecl) :
    List Lexeme → Except Fault TypeDecl
  | [] => .ok (ofMembers (member :: before).reverse)
  | ⟨.brackets, _⟩ :: rest => parseAfter lookup before (.arrayOf member) rest
  | ⟨.question, _⟩ :: rest => parseAfter lookup before member.orNull rest
  | ⟨.bar, _⟩ :: ⟨.name chars, _⟩ :: rest =>
    match resolve lookup (String.ofList chars) with
    | .ok next => parseAfter lookup (member :: before) next rest
    | .error fault => .error fault
  | ⟨.bar, _⟩ :: rest => .error (missingName rest)
  | lexeme :: _ => .error (.unexpected (String.ofList lexeme.text))

/-- Reads a whole declaration from its lexemes. -/
def parseLexemes (lookup : String → Option ShapeId) : List Lexeme → Except Fault TypeDecl
  | ⟨.name chars, _⟩ :: rest =>
    match resolve lookup (String.ofList chars) with
    | .ok member => parseAfter lookup [] member rest
    | .error fault => .error fault
  | lexemes => .error (missingName lexemes)

/-- Reads a declared type, resolving the names of shapes through `lookup`. -/
def parse (lookup : String → Option ShapeId) (text : String) : Except Fault TypeDecl :=
  parseLexemes lookup (lexemes text.toList)

end Declaration

end SyntaxPack
