import SyntaxPack.Text
import SyntaxPack.Toml.Document
/-!
# SyntaxPack.Toml.Scalar

The smallest parts of a settings text: blanks and comments, strings and keys.
-/

namespace SyntaxPack.Toml

/-! ### Blanks and comments -/

/-- Whether a character is a blank within a line. -/
def isBlank (c : Char) : Bool := c = ' ' || c = '\t'

/-- Whether a character may stand in a comment or a string. -/
def isPlain (c : Char) : Bool := c = '\t' || (0x20 ≤ c.toNat && c.toNat ≠ 0x7F)

/-- A text without the blanks at its front. -/
def skipBlanks (cs : List Char) : List Char := cs.dropWhile isBlank

/-- A text without the comment at its front, if there is one. -/
def skipComment : List Char → List Char
  | '#' :: cs => cs.dropWhile isPlain
  | cs => cs

/-- A text after the line end at its front. -/
def lineEnd? : List Char → Option (List Char)
  | '\n' :: cs => some cs
  | '\x0d' :: '\n' :: cs => some cs
  | _ => none

/-- A text after the rest of a line that holds no more than blanks and a
comment. The last line needs no end. -/
def restOfLine? (cs : List Char) : Option (List Char) :=
  match skipComment (skipBlanks cs) with
  | [] => some []
  | cs => lineEnd? cs

/-- A text without the blanks, comments and line ends at its front, of at most
`lines` lines. -/
def skipLines : Nat → List Char → List Char
  | 0, cs => skipBlanks cs
  | lines + 1, cs =>
    let cs := skipBlanks cs
    match lineEnd? (skipComment cs) with
    | some rest => skipLines lines rest
    | none => cs

/-- A text without the blanks, comments and line ends at its front. -/
def skipSpace (cs : List Char) : List Char := skipLines cs.length cs

/-! ### Strings -/

/-- The number that hexadecimal digits stand for. -/
def hexValue? (digits : List Char) : Option Nat :=
  digits.foldlM (fun n c => (Text.hexDigit? c).map (n * 16 + ·)) 0

/-- The character of a code point, none for surrogates and beyond the last one. -/
def scalar? (n : Nat) : Option Char :=
  if n < 0xD800 ∨ (0xDFFF < n ∧ n < 0x110000) then some (Char.ofNat n) else none

/-- The character of an escape with hexadecimal digits. -/
def hexEscape? (digits : List Char) : Option Char := (hexValue? digits).bind scalar?

/-- The character of a one-letter escape. -/
def escape? : Char → Option Char
  | '"' => some '"'
  | '\\' => some '\\'
  | 'b' => some '\x08'
  | 't' => some '\t'
  | 'n' => some '\n'
  | 'f' => some '\x0c'
  | 'r' => some '\r'
  | 'e' => some '\x1b'
  | _ => none

/-- Puts a character in front of a string that was read, if both could be. -/
def consChar (c : Option Char) (result : Option (List Char × List Char)) :
    Option (List Char × List Char) :=
  match c, result with
  | some c, some (cs, rest) => some (c :: cs, rest)
  | _, _ => none

/-- Reads a string with escapes after its opening quote. -/
def readBasic : List Char → Option (List Char × List Char)
  | [] => none
  | '"' :: rest => some ([], rest)
  | '\\' :: 'x' :: a :: b :: rest => consChar (hexEscape? [a, b]) (readBasic rest)
  | '\\' :: 'u' :: a :: b :: c :: d :: rest => consChar (hexEscape? [a, b, c, d]) (readBasic rest)
  | '\\' :: 'U' :: a :: b :: c :: d :: e :: f :: g :: h :: rest =>
    consChar (hexEscape? [a, b, c, d, e, f, g, h]) (readBasic rest)
  | '\\' :: c :: rest => consChar (escape? c) (readBasic rest)
  | c :: rest => consChar (if isPlain c then some c else none) (readBasic rest)

/-- Reads a string without escapes after its opening quote. -/
def readLiteral : List Char → Option (List Char × List Char)
  | [] => none
  | '\'' :: rest => some ([], rest)
  | c :: rest => consChar (if isPlain c then some c else none) (readLiteral rest)

/-- Reads a string on one line, of either kind. -/
def readString : List Char → Option (String × List Char)
  | '"' :: rest => (readBasic rest).map fun (cs, rest) => (String.ofList cs, rest)
  | '\'' :: rest => (readLiteral rest).map fun (cs, rest) => (String.ofList cs, rest)
  | _ => none

/-! ### Strings on several lines -/

/-- A text without the line end at its front, if there is one. -/
def skipLineEnd (cs : List Char) : List Char := (lineEnd? cs).getD cs

/-- Puts the quotes that stand right before the closing ones into a string: up
to two of them. -/
def closeBlock (quote : Char) : List Char → List Char × List Char
  | [] => ([], [])
  | [a] => if a = quote then ([a], []) else ([], [a])
  | a :: b :: rest =>
    if a ≠ quote then ([], a :: b :: rest)
    else if b ≠ quote then ([a], b :: rest)
    else ([a, b], rest)

/-- Whether a text starts with blanks and a line end. -/
def startsWithRestOfLine (cs : List Char) : Bool := (lineEnd? (skipBlanks cs)).isSome

/-- A text without the blanks and line ends at its front. -/
def skipToText : List Char → List Char
  | '\x0d' :: '\n' :: cs => skipToText cs
  | c :: cs => if isBlank c || c = '\n' then skipToText cs else c :: cs
  | [] => []

/-- Reads a string with escapes on several lines after its opening quotes. A
backslash at the end of a line joins it to the next text. Each call takes a
character off the text, so that a bound of its length on `steps` is never
reached. -/
def readBasicBlock : Nat → List Char → Option (List Char × List Char)
  | 0, _ => none
  | steps + 1, cs =>
    match cs with
    | [] => none
    | '"' :: '"' :: '"' :: rest => some (closeBlock '"' rest)
    | '\x0d' :: '\n' :: rest =>
      (readBasicBlock steps rest).map fun (cs, rest) => ('\x0d' :: '\n' :: cs, rest)
    | '\\' :: 'x' :: a :: b :: rest =>
      consChar (hexEscape? [a, b]) (readBasicBlock steps rest)
    | '\\' :: 'u' :: a :: b :: c :: d :: rest =>
      consChar (hexEscape? [a, b, c, d]) (readBasicBlock steps rest)
    | '\\' :: 'U' :: a :: b :: c :: d :: e :: f :: g :: h :: rest =>
      consChar (hexEscape? [a, b, c, d, e, f, g, h]) (readBasicBlock steps rest)
    | '\\' :: c :: rest =>
      if startsWithRestOfLine (c :: rest) then readBasicBlock steps (skipToText (c :: rest))
      else consChar (escape? c) (readBasicBlock steps rest)
    | c :: rest =>
      consChar (if isPlain c || c = '\n' then some c else none) (readBasicBlock steps rest)

/-- Reads a string without escapes on several lines after its opening quotes. -/
def readLiteralBlock : List Char → Option (List Char × List Char)
  | [] => none
  | '\'' :: '\'' :: '\'' :: rest => some (closeBlock '\'' rest)
  | '\x0d' :: '\n' :: rest =>
    (readLiteralBlock rest).map fun (cs, rest) => ('\x0d' :: '\n' :: cs, rest)
  | c :: rest => consChar (if isPlain c || c = '\n' then some c else none) (readLiteralBlock rest)

/-- Reads a string of any kind. A line end right after the opening quotes of one
on several lines is not part of it. -/
def readText : List Char → Option (String × List Char)
  | '"' :: '"' :: '"' :: rest =>
    (readBasicBlock (rest.length + 1) (skipLineEnd rest)).map fun (cs, rest) =>
      (String.ofList cs, rest)
  | '\'' :: '\'' :: '\'' :: rest =>
    (readLiteralBlock (skipLineEnd rest)).map fun (cs, rest) => (String.ofList cs, rest)
  | cs => readString cs

/-! ### Keys -/

/-- Whether a character may stand in a key without quotes. -/
def isKeyChar (c : Char) : Bool := c.isAlphanum || c = '_' || c = '-'

/-- Reads one key, quoted or not. -/
def readKey (cs : List Char) : Option (String × List Char) :=
  match cs with
  | '"' :: _ | '\'' :: _ => readString cs
  | cs =>
    match cs.takeWhile isKeyChar with
    | [] => none
    | key => some (String.ofList key, cs.dropWhile isKeyChar)

/-- Reads at most so many keys with dots in between. -/
def readKeys : Nat → List Char → Option (List String × List Char)
  | 0, _ => none
  | more + 1, cs => do
    let (key, rest) ← readKey cs
    match skipBlanks rest with
    | '.' :: rest => do
      let (keys, rest) ← readKeys more (skipBlanks rest)
      return (key :: keys, rest)
    | rest => return ([key], rest)

/-- How many keys there may be with dots in between, and how many brackets and
braces may be open at a time. -/
def maxDepth : Nat := 80

/-- Reads keys with dots in between. -/
def readPath (cs : List Char) : Option (List String × List Char) := readKeys maxDepth cs

end SyntaxPack.Toml
