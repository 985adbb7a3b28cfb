import SyntaxPack.Toml.Document
/-!
# SyntaxPack.Toml.Section

Putting the lines of a settings text together.

A line sets a key, or opens the table that the following lines fill. How a table
came about decides what may still be added to it: one that was written as a
value is complete, one that a header opened cannot be opened again, and one that
only stands on the way to another can.
-/

namespace SyntaxPack.Toml

/-- How a table that lines fill came about. -/
inductive Origin where
  /-- It stands on the way to the table of a header. -/
  | implied
  /-- A header opened it. -/
  | header
  /-- It stands on the way to a key with dots. -/
  | dotted
  deriving DecidableEq, Repr, Inhabited

/-- What is under a key while lines are put together. -/
inductive Part where
  /-- A value, which is complete. -/
  | value (value : Toml)
  /-- A table that lines fill. -/
  | table (origin : Origin) (entries : List (String × Part))
  /-- A list of tables, the last one first, which lines fill. -/
  | tables (items : List (List (String × Part)))
  deriving Repr, Inhabited

/-- The entries of a table that lines fill. -/
abbrev Parts := List (String × Part)

/-- Replaces what is under a key, or adds it. -/
def Parts.set (key : String) (part : Part) : Parts → Parts
  | [] => [(key, part)]
  | (name, old) :: parts =>
    if name = key then (name, part) :: parts else (name, old) :: Parts.set key part parts

/-- Sets a key with dots to a value. -/
def Parts.assign (value : Toml) : List String → Parts → Option Parts
  | [], _ => none
  | [key], parts =>
    match parts.lookup key with
    | some _ => none
    | none => some (Parts.set key (.value value) parts)
  | key :: keys, parts =>
    match parts.lookup key with
    | none =>
      (Parts.assign value keys []).map fun inner => Parts.set key (.table .dotted inner) parts
    | some (.table .dotted inner) =>
      (Parts.assign value keys inner).map fun inner => Parts.set key (.table .dotted inner) parts
    | some _ => none

/-- Changes the table at a path. A list of tables stands for its last one, and
missing tables on the way are added. -/
def Parts.update (change : Parts → Option Parts) : List String → Parts → Option Parts
  | [], parts => change parts
  | key :: keys, parts =>
    match parts.lookup key with
    | none =>
      (Parts.update change keys []).map fun inner => Parts.set key (.table .implied inner) parts
    | some (.table origin inner) =>
      (Parts.update change keys inner).map fun inner => Parts.set key (.table origin inner) parts
    | some (.tables (last :: before)) =>
      (Parts.update change keys last).map fun last => Parts.set key (.tables (last :: before)) parts
    | some _ => none

/-- Opens the table of a key. -/
def Parts.openTable (key : String) (parts : Parts) : Option Parts :=
  match parts.lookup key with
  | none => some (Parts.set key (.table .header []) parts)
  | some (.table .implied inner) => some (Parts.set key (.table .header inner) parts)
  | some _ => none

/-- Adds a table to the list of a key. -/
def Parts.openItem (key : String) (parts : Parts) : Option Parts :=
  match parts.lookup key with
  | none => some (Parts.set key (.tables [[]]) parts)
  | some (.tables items) => some (Parts.set key (.tables ([] :: items)) parts)
  | some _ => none

mutual

/-- What a part stands for. -/
def Part.toToml : Part → Toml
  | .value value => value
  | .table _ entries => .table (entriesToToml entries)
  | .tables items => .array (itemsToToml items).reverse

/-- What the entries of a table stand for. -/
def entriesToToml : List (String × Part) → List (String × Toml)
  | [] => []
  | (key, part) :: parts => (key, part.toToml) :: entriesToToml parts

/-- What the items of a list stand for. -/
def itemsToToml : List (List (String × Part)) → List Toml
  | [] => []
  | entries :: items => .table (entriesToToml entries) :: itemsToToml items

end

/-- One line of a settings text. -/
inductive Line where
  /-- Sets a key to a value. -/
  | entry (keys : List String) (value : Toml)
  /-- Opens a table. -/
  | header (path : List String)
  /-- Opens the next table of a list. -/
  | itemHeader (path : List String)
  deriving Repr, Inhabited

/-- A settings text up to some line: its content and the path of the open
table. -/
structure Partial where
  /-- The content. -/
  parts : Parts := []
  /-- The path of the open table. -/
  path : List String := []
  deriving Repr, Inhabited

/-- Adds a line. -/
def Partial.add (p : Partial) : Line → Option Partial
  | .entry keys value =>
    (p.parts.update (Parts.assign value keys) p.path).map fun parts => { p with parts := parts }
  | .header path =>
    match path.getLast? with
    | none => none
    | some key =>
      (p.parts.update (Parts.openTable key) path.dropLast).map fun parts => ⟨parts, path⟩
  | .itemHeader path =>
    match path.getLast? with
    | none => none
    | some key =>
      (p.parts.update (Parts.openItem key) path.dropLast).map fun parts => ⟨parts, path⟩

/-- The document of lines. -/
def ofLines (lines : List Line) : Option Toml :=
  (lines.foldlM Partial.add ({} : Partial)).map fun p => .table (entriesToToml p.parts)

/-- The table of keys and values that stand between braces. -/
def ofEntries (entries : List (List String × Toml)) : Option Toml :=
  ofLines (entries.map fun (keys, value) => .entry keys value)

end SyntaxPack.Toml
