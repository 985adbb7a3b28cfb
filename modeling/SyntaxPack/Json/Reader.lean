import SyntaxPack.Json.Number
/-!
# SyntaxPack.Json.Reader

Documents from JSON text.

Arrays and objects may stand inside one another 127 levels deep. Of several
properties of one name the last one counts.
-/

namespace SyntaxPack.Json

/-- Whether a character may stand between tokens. -/
def isSpace (c : Char) : Bool := c = ' ' || c = '\n' || c = '\t' || c = '\r'

/-- A text without the spaces at its front. -/
def skipSpaces (cs : List Char) : List Char := cs.dropWhile isSpace

/-! ### Strings -/

/-- The number that four hexadecimal digits stand for. -/
def hex4? (a b c d : Char) : Option Nat := do
  let a ← Text.hexDigit? a
  let b ← Text.hexDigit? b
  let c ← Text.hexDigit? c
  let d ← Text.hexDigit? d
  return ((a * 16 + b) * 16 + c) * 16 + d

/-- The character of a one-letter escape. -/
def escape? : Char → Option Char
  | '"' => some '"'
  | '\\' => some '\\'
  | '/' => some '/'
  | 'b' => some '\x08'
  | 'f' => some '\x0c'
  | 'n' => some '\n'
  | 'r' => some '\r'
  | 't' => some '\t'
  | _ => none

/-- Whether a number is the first half of a surrogate pair. -/
def isHighSurrogate (n : Nat) : Bool := 0xD800 ≤ n && n < 0xDC00

/-- Whether a number is the second half of a surrogate pair. -/
def isLowSurrogate (n : Nat) : Bool := 0xDC00 ≤ n && n < 0xE000

/-- The character that a surrogate pair stands for. -/
def ofSurrogates (high low : Nat) : Char :=
  Char.ofNat (0x10000 + (high - 0xD800) * 0x400 + (low - 0xDC00))

/-- Reads a string after its opening quote. Surrogates must come in pairs, and
control characters as escapes. -/
def readString : List Char → Option (List Char × List Char)
  | [] => none
  | '"' :: rest => some ([], rest)
  | '\\' :: 'u' :: a :: b :: c :: d :: rest =>
    match hex4? a b c d with
    | none => none
    | some n =>
      if isHighSurrogate n then
        match rest with
        | '\\' :: 'u' :: a :: b :: c :: d :: rest =>
          match hex4? a b c d with
          | none => none
          | some low =>
            if isLowSurrogate low then
              (readString rest).map fun (cs, rest) => (ofSurrogates n low :: cs, rest)
            else none
        | _ => none
      else if isLowSurrogate n then none
      else (readString rest).map fun (cs, rest) => (Char.ofNat n :: cs, rest)
  | '\\' :: c :: rest =>
    match escape? c with
    | none => none
    | some c => (readString rest).map fun (cs, rest) => (c :: cs, rest)
  | c :: rest =>
    if c.toNat < 0x20 then none else (readString rest).map fun (cs, rest) => (c :: cs, rest)

/-! ### Values -/

/-- How many levels of arrays and objects a document may have, and one. -/
def maxDepth : Nat := 128

mutual

/-- Reads a value. `depth` is the number of further levels it may have, and
one. Each call takes a character off the text, so that a bound of the length
of the text on `steps` is never reached. -/
def readValue (steps depth : Nat) (cs : List Char) : Option (Json × List Char) :=
  match steps, skipSpaces cs with
  | 0, _ => none
  | steps + 1, cs =>
    match cs with
    | 'n' :: 'u' :: 'l' :: 'l' :: rest => some (.null, rest)
    | 't' :: 'r' :: 'u' :: 'e' :: rest => some (.boolean true, rest)
    | 'f' :: 'a' :: 'l' :: 's' :: 'e' :: rest => some (.boolean false, rest)
    | '"' :: rest => (readString rest).map fun (s, rest) => (.string (String.ofList s), rest)
    | '[' :: rest =>
      if depth ≤ 1 then none
      else
        match skipSpaces rest with
        | ']' :: rest => some (.array [], rest)
        | rest => (readItems steps (depth - 1) rest).map fun (items, rest) => (.array items, rest)
    | '\x7b' :: rest =>
      if depth ≤ 1 then none
      else
        match skipSpaces rest with
        | '\x7d' :: rest => some (.object [], rest)
        | rest =>
          (readProperties steps (depth - 1) rest).map fun (properties, rest) =>
            (.ofProperties properties, rest)
    | cs => readNumber cs

/-- Reads the items of an array up to the closing bracket. -/
def readItems (steps depth : Nat) (cs : List Char) : Option (List Json × List Char) :=
  match steps with
  | 0 => none
  | steps + 1 =>
    match readValue steps depth cs with
    | none => none
    | some (item, rest) =>
      match skipSpaces rest with
      | ']' :: rest => some ([item], rest)
      | ',' :: rest =>
        (readItems steps depth rest).map fun (items, rest) => (item :: items, rest)
      | _ => none

/-- Reads the properties of an object up to the closing brace. -/
def readProperties (steps depth : Nat) (cs : List Char) :
    Option (List (String × Json) × List Char) :=
  match steps, skipSpaces cs with
  | steps + 1, '"' :: rest =>
    match readString rest with
    | none => none
    | some (name, rest) =>
      match skipSpaces rest with
      | ':' :: rest =>
        match readValue steps depth rest with
        | none => none
        | some (value, rest) =>
          let property := (String.ofList name, value)
          match skipSpaces rest with
          | '\x7d' :: rest => some ([property], rest)
          | ',' :: rest =>
            (readProperties steps depth rest).map fun (properties, rest) =>
              (property :: properties, rest)
          | _ => none
      | _ => none
  | _, _ => none

end

/-- The document of a text. -/
def parse? (text : String) : Option Json :=
  let cs := text.toList
  match readValue (2 * cs.length + 2) maxDepth cs with
  | some (json, rest) => if (skipSpaces rest).isEmpty then some json else none
  | none => none

end SyntaxPack.Json
