import SyntaxPack.Double.Shortest
import SyntaxPack.Json.Document
import SyntaxPack.Text
/-!
# SyntaxPack.Json.Printer

Documents as JSON text, on one line or with one item or property per line.
-/

namespace SyntaxPack.Json

/-- One character of a string. Only quotes, backslashes and control characters
are escaped. -/
def renderChar (c : Char) : String :=
  match c with
  | '"' => "\\\""
  | '\\' => "\\\\"
  | '\n' => "\\n"
  | '\r' => "\\r"
  | '\t' => "\\t"
  | '\x08' => "\\b"
  | '\x0c' => "\\f"
  | c => if c.toNat < 0x20 then "\\u" ++ Text.hex 4 c.toNat else String.singleton c

/-- A string between quotes. -/
def renderString (s : String) : String := "\"" ++ String.join (s.toList.map renderChar) ++ "\""

/-- Where the text of a document has breaks and blanks. -/
structure Style where
  /-- What stands in front of an item or a closing bracket at a level. -/
  lineBreak : Nat → String
  /-- What stands between the name of a property and its value. -/
  colon : String

/-- Everything on one line. -/
def Style.compact : Style := ⟨fun _ => "", ":"⟩

/-- One item or property per line, indented by two blanks per level. -/
def Style.pretty : Style := ⟨fun level => "\n" ++ "".pushn ' ' (2 * level), ": "⟩

/-- Parts between brackets, each on a line of its own if the style has lines. -/
def Style.enclose (style : Style) (level : Nat) (opening closing : String) (parts : List String) :
    String :=
  if parts.isEmpty then opening ++ closing
  else
    let lineBreak := style.lineBreak (level + 1)
    opening ++ lineBreak ++ ("," ++ lineBreak).intercalate parts ++ style.lineBreak level ++ closing

mutual

/-- The text of a document at a level. -/
def renderAt (style : Style) (level : Nat) : Json → String
  | .null => "null"
  | .boolean true => "true"
  | .boolean false => "false"
  | .integer value => toString value
  | .float value => value.render
  | .string value => renderString value
  | .array items => style.enclose level "[" "]" (renderItems style (level + 1) items)
  | .object properties =>
    style.enclose level "\x7b" "\x7d" (renderProperties style (level + 1) properties)

/-- The texts of the items of an array. -/
def renderItems (style : Style) (level : Nat) : List Json → List String
  | [] => []
  | item :: items => renderAt style level item :: renderItems style level items

/-- The texts of the properties of an object. -/
def renderProperties (style : Style) (level : Nat) : List (String × Json) → List String
  | [] => []
  | (name, value) :: properties =>
    (renderString name ++ style.colon ++ renderAt style level value) ::
      renderProperties style level properties

end

/-- The text of a document. -/
def render (style : Style) (json : Json) : String := renderAt style 0 json

end SyntaxPack.Json
