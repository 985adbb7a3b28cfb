/-!
# SyntaxPack.Toml.Document

Settings documents: nested tables of keys and values, as the text format of
`Toml.Reader` describes them.
-/

namespace SyntaxPack

/-- A value of a settings document. -/
inductive Toml where
  /-- A string. -/
  | string (value : String)
  /-- An integer. -/
  | integer (value : Int)
  /-- A floating-point number, a date or time, or a numeral that no number
  belongs to. No setting is one of these, so which one is not kept. -/
  | other
  /-- A boolean. -/
  | boolean (value : Bool)
  /-- A list. -/
  | array (items : List Toml)
  /-- A table, with distinct keys. -/
  | table (entries : List (String × Toml))
  deriving Repr, Inhabited

namespace Toml

/-- The string that a value is. -/
def string? : Toml → Option String
  | string value => some value
  | _ => none

/-- The boolean that a value is. -/
def boolean? : Toml → Option Bool
  | boolean value => some value
  | _ => none

/-- The number of at most 32 bits that a value is. -/
def nat32? : Toml → Option Nat
  | integer value => if 0 ≤ value ∧ value < UInt32.size then some value.toNat else none
  | _ => none

/-- The items of a list, each of which must be a value of some kind. -/
def list? {α : Type} (item? : Toml → Option α) : Toml → Option (List α)
  | array items => items.mapM item?
  | _ => none

/-- Whether a value is an empty list or an empty table. -/
def isEmpty : Toml → Bool
  | array items => items.isEmpty
  | table entries => entries.isEmpty
  | _ => false

/-- The fields of a record: a table without other keys, or the values of the
fields in their order, as far as there are any. -/
def record? (names : List String) : Toml → Option (List (String × Toml))
  | table entries => if entries.all (names.contains ·.1) then some entries else none
  | array items => some (names.zip items)
  | _ => none

/-- The value of a field that may be missing. -/
def field? {α : Type} (value? : Toml → Option α) (default : α) (name : String)
    (fields : List (String × Toml)) : Option α :=
  match fields.lookup name with
  | some value => value? value
  | none => some default

/-- The value of a field that must be there. -/
def required? {α : Type} (value? : Toml → Option α) (name : String)
    (fields : List (String × Toml)) : Option α :=
  (fields.lookup name).bind value?

/-- One of several named choices: its name, or a table with its name as the only
key and nothing under it. -/
def choice? {α : Type} (ofName? : String → Option α) : Toml → Option α
  | string name => ofName? name
  | table [(name, value)] => if value.isEmpty then ofName? name else none
  | _ => none

end Toml

end SyntaxPack
