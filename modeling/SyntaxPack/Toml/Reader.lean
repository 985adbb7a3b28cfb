import SyntaxPack.Toml.Section
import SyntaxPack.Toml.Word
/-!
# SyntaxPack.Toml.Reader

Documents from settings text.

Every line sets a key (`key = value`), opens a table (`[path]`), or opens the
next table of a list (`[[path]]`). Values are strings, words such as numbers and
booleans, lists in brackets and tables in braces. Within brackets and braces line
ends and comments may stand wherever a blank may, and a comma after the last
item. A key is set only once, and no more than `maxDepth` brackets and braces may
be open at a time.
-/

namespace SyntaxPack.Toml

/-! ### Values -/

mutual

/-- Reads a value with at most `depth` more brackets and braces open at a time.
Each call takes a character off the text, so that a bound of the length of the
text on `steps` is never reached. -/
def readValue (depth steps : Nat) (cs : List Char) : Option (Toml × List Char) :=
  match steps with
  | 0 => none
  | steps + 1 =>
    match cs, depth with
    | '"' :: _, _ | '\'' :: _, _ => (readText cs).map fun (s, rest) => (.string s, rest)
    | '[' :: _, 0 | '\x7b' :: _, 0 => none
    | '[' :: rest, depth + 1 =>
      (readItems depth steps (skipSpace rest)).map fun (items, rest) => (.array items, rest)
    | '\x7b' :: rest, depth + 1 =>
      match readEntries depth steps (skipSpace rest) with
      | some (entries, rest) => (ofEntries entries).map fun table => (table, rest)
      | none => none
    | cs, _ => readWord cs

/-- Reads the items of a list up to the closing bracket. -/
def readItems (depth steps : Nat) (cs : List Char) : Option (List Toml × List Char) :=
  match steps, cs with
  | 0, _ => none
  | _, ']' :: rest => some ([], rest)
  | steps + 1, cs =>
    match readValue depth steps cs with
    | none => none
    | some (item, rest) =>
      match skipSpace rest with
      | ']' :: rest => some ([item], rest)
      | ',' :: rest =>
        (readItems depth steps (skipSpace rest)).map fun (items, rest) => (item :: items, rest)
      | _ => none

/-- Reads the keys and values of a table up to the closing brace. -/
def readEntries (depth steps : Nat) (cs : List Char) :
    Option (List (List String × Toml) × List Char) :=
  match steps, cs with
  | 0, _ => none
  | _, '\x7d' :: rest => some ([], rest)
  | steps + 1, cs =>
    match readPath cs with
    | none => none
    | some (keys, rest) =>
      match skipSpace rest with
      | '=' :: rest =>
        match readValue depth steps (skipSpace rest) with
        | none => none
        | some (value, rest) =>
          match skipSpace rest with
          | '\x7d' :: rest => some ([(keys, value)], rest)
          | ',' :: rest =>
            (readEntries depth steps (skipSpace rest)).map fun (entries, rest) =>
              ((keys, value) :: entries, rest)
          | _ => none
      | _ => none

end

/-! ### Lines -/

/-- Reads the path of a header up to its closing brackets. -/
def readHeader (closing : List Char) (cs : List Char) : Option (List String × List Char) := do
  let (path, rest) ← readPath (skipBlanks cs)
  let rest := skipBlanks rest
  if closing.isPrefixOf rest then return (path, rest.drop closing.length) else none

/-- Reads a line that is not empty, up to what may follow it on the line. -/
def readLine (cs : List Char) : Option (Line × List Char) :=
  match cs with
  | '[' :: '[' :: rest =>
    (readHeader [']', ']'] rest).map fun (path, rest) => (.itemHeader path, rest)
  | '[' :: rest => (readHeader [']'] rest).map fun (path, rest) => (.header path, rest)
  | cs => do
    let (keys, rest) ← readPath cs
    match skipBlanks rest with
    | '=' :: rest =>
      let (value, rest) ← readValue maxDepth (2 * rest.length + 2) (skipBlanks rest)
      return (.entry keys value, rest)
    | _ => none

/-- Reads all lines. Each takes a character off the text, so that a bound of the
length of the text on `steps` is never reached. -/
def readLines : Nat → List Char → Option (List Line)
  | 0, _ => none
  | steps + 1, cs =>
    match skipSpace cs with
    | [] => some []
    | '#' :: rest => if (rest.dropWhile isPlain).isEmpty then some [] else none
    | cs => do
      let (line, rest) ← readLine cs
      let rest ← restOfLine? rest
      let lines ← readLines steps rest
      return line :: lines

/-- The document of a text. A byte order mark in front of it is skipped. -/
def parse? (text : String) : Option Toml :=
  let cs := match text.toList with
    | '\ufeff' :: cs => cs
    | cs => cs
  (readLines (cs.length + 1) cs).bind ofLines

end SyntaxPack.Toml
