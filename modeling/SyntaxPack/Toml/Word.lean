import SyntaxPack.Toml.Scalar
/-!
# SyntaxPack.Toml.Word

Values without quotes and brackets: booleans, numbers, dates and times.

A word may be a numeral that no number belongs to: in a base other than ten it
may have no digits, and after an underscore between digits a decimal one may end
in other characters. Such a numeral is refused only where a setting is read from
it.
-/

namespace SyntaxPack.Toml

/-! ### Integers -/

/-- Digits without the underscores between them, none if an underscore does not
stand between two digits. -/
def plainDigits (isDigit : Char → Bool) : List Char → Option (List Char)
  | [] => none
  | [c] => if isDigit c then some [c] else none
  | c :: '_' :: cs => if isDigit c then (plainDigits isDigit cs).map (c :: ·) else none
  | c :: cs => if isDigit c then (plainDigits isDigit cs).map (c :: ·) else none

/-- The number that digits of a base stand for. -/
def valueIn (base : Nat) (digits : List Char) : Nat :=
  digits.foldl (fun n c => n * base + (Text.hexDigit? c).getD 0) 0

/-- A numeral in a base other than ten, after its mark. -/
def basedNumeral? (base : Nat) : List Char → Option Toml
  | [] => some .other
  | cs =>
    let isDigit (c : Char) : Bool := (Text.hexDigit? c).any (· < base)
    (plainDigits isDigit cs).map fun digits => .integer (valueIn base digits)

/-- Characters without the underscores between them, none if an underscore does
not stand between two hexadecimal digits. -/
def ungrouped : List Char → Option (List Char)
  | [] => some []
  | ['_'] => none
  | a :: '_' :: b :: cs =>
    if (Text.hexDigit? a).isSome && (Text.hexDigit? b).isSome then
      (ungrouped (b :: cs)).map (a :: ·)
    else none
  | c :: cs => (ungrouped cs).map (c :: ·)

/-- A decimal numeral after its sign. It has no zero in front of anything else,
and its first digits end with it or at an underscore. -/
def decimalNumeral? (sign : Int) : List Char → Option Toml
  | [] => none
  | '0' :: cs => if cs.isEmpty then some (.integer 0) else none
  | c :: cs =>
    match c.isDigit, cs.dropWhile Char.isDigit with
    | true, [] | true, '_' :: _ =>
      (ungrouped (c :: cs)).map fun digits =>
        if digits.all Char.isDigit then .integer (sign * valueIn 10 digits) else .other
    | _, _ => none

/-! ### Floating-point numbers -/

/-- Whether a character only stands in floating-point numbers. -/
def isFloatMark (c : Char) : Bool := c = '.' || c = 'e' || c = 'E'

/-- Whether digits are the whole part of a floating-point number: no zero stands
in front of another digit. -/
def isWholePart (cs : List Char) : Bool :=
  match plainDigits Char.isDigit cs with
  | some ('0' :: _ :: _) | none => false
  | some _ => true

/-- Whether the text after the whole part of a floating-point number is a
fraction, an exponent or both. -/
def isFractional (cs : List Char) : Bool :=
  let isExponent (cs : List Char) : Bool :=
    let digits := match cs with
      | '+' :: cs | '-' :: cs | cs => cs
    (plainDigits Char.isDigit digits).isSome
  match cs with
  | '.' :: cs =>
    let isMark (c : Char) : Bool := c = 'e' || c = 'E'
    let fraction := cs.takeWhile (!isMark ·)
    (plainDigits Char.isDigit fraction).isSome &&
      match cs.dropWhile (!isMark ·) with
      | [] => true
      | _ :: cs => isExponent cs
  | 'e' :: cs | 'E' :: cs => isExponent cs
  | _ => false

/-- Whether a text is a floating-point number. -/
def isFloat (cs : List Char) : Bool :=
  let cs := match cs with
    | '+' :: cs | '-' :: cs | cs => cs
  let isWhole (c : Char) : Bool := c.isDigit || c = '_'
  cs = "inf".toList || cs = "nan".toList ||
    (isWholePart (cs.takeWhile isWhole) && isFractional (cs.dropWhile isWhole))

/-! ### Dates and times -/

/-- The number of two digits at the front of a text, with what follows it. -/
def twoDigits? : List Char → Option (Nat × List Char)
  | a :: b :: rest =>
    match Text.decimalDigit? a, Text.decimalDigit? b with
    | some a, some b => some (a * 10 + b, rest)
    | _, _ => none
  | _ => none

/-- The number of days of a month. -/
def daysOfMonth (year month : Nat) : Nat :=
  let isLeap := year % 4 = 0 ∧ (year % 100 ≠ 0 ∨ year % 400 = 0)
  if month = 2 then if isLeap then 29 else 28
  else if month ∈ [4, 6, 9, 11] then 30
  else 31

/-- A text after the date at its front. -/
def date? (cs : List Char) : Option (List Char) := do
  let (century, cs) ← twoDigits? cs
  let (year, cs) ← twoDigits? cs
  let ('-' :: cs) := cs | none
  let (month, cs) ← twoDigits? cs
  let ('-' :: cs) := cs | none
  let (day, cs) ← twoDigits? cs
  if 1 ≤ month ∧ month ≤ 12 ∧ 1 ≤ day ∧ day ≤ daysOfMonth (century * 100 + year) month then
    some cs
  else none

/-- A text after the hour and minute at its front. -/
def hourAndMinute? (cs : List Char) : Option (List Char) := do
  let (hour, cs) ← twoDigits? cs
  let (':' :: cs) := cs | none
  let (minute, cs) ← twoDigits? cs
  if hour ≤ 23 ∧ minute ≤ 59 then some cs else none

/-- A text after the time at its front. Seconds and their fraction may be
missing. -/
def time? (cs : List Char) : Option (List Char) := do
  let cs ← hourAndMinute? cs
  let (':' :: cs) := cs | some cs
  let (second, cs) ← twoDigits? cs
  if 60 < second then none
  else
    match cs with
    | '.' :: cs =>
      if (cs.head?.map Char.isDigit).getD false then some (cs.dropWhile Char.isDigit) else none
    | cs => some cs

/-- Whether a text is empty or the offset of a time zone. -/
def isOffset : List Char → Bool
  | [] | ['Z'] | ['z'] => true
  | '+' :: cs | '-' :: cs => hourAndMinute? cs = some []
  | _ => false

/-- Whether a text is a date. -/
def isDate (cs : List Char) : Bool := date? cs = some []

/-- Whether a text is a date, a time, or a date with a time. -/
def isDateTime (cs : List Char) : Bool :=
  isDate cs || time? cs = some [] ||
    match date? cs with
    | some ('T' :: cs) | some ('t' :: cs) | some (' ' :: cs) => (time? cs).any isOffset
    | _ => false

/-! ### Words -/

/-- Whether a character ends a word. -/
def endsWord (c : Char) : Bool :=
  c ∈ [' ', '\t', '\n', '\x0d', '=', ',', '[', ']', '\x7b', '\x7d', '#']

/-- The value that a word is. -/
def ofWord? (word : List Char) : Option Toml :=
  if word = "true".toList then some (.boolean true)
  else if word = "false".toList then some (.boolean false)
  else if isFloat word || isDateTime word then some .other
  else
    match word with
    | '0' :: 'x' :: cs => basedNumeral? 16 cs
    | '0' :: 'o' :: cs => basedNumeral? 8 cs
    | '0' :: 'b' :: cs => basedNumeral? 2 cs
    | word =>
      if word.any isFloatMark then none
      else
        match word with
        | '-' :: cs => decimalNumeral? (-1) cs
        | '+' :: cs | cs => decimalNumeral? 1 cs

/-- Reads a word. A date may be followed by a blank and a time. -/
def readWord (cs : List Char) : Option (Toml × List Char) :=
  let word := cs.takeWhile (!endsWord ·)
  match isDate word, cs.dropWhile (!endsWord ·) with
  | true, ' ' :: c :: rest =>
    if c.isDigit then
      let time := (c :: rest).takeWhile (!endsWord ·)
      (ofWord? (word ++ ' ' :: time)).map fun value => (value, (c :: rest).drop time.length)
    else some (.other, ' ' :: c :: rest)
  | _, rest => (ofWord? word).map fun value => (value, rest)

end SyntaxPack.Toml
