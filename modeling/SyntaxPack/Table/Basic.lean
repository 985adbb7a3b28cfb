import SyntaxPack.Error
/-!
# SyntaxPack.Table.Basic

Interning tables.

A table maps names to values and counts how often each name was added. While it
is *building*, entries are added, and one entry can be merged into another: the
merged entry keeps a link to the surviving one, and every handle or name that
reached the former reaches the latter from then on. Once it is *finalized*, the
live entries have dense indices and nothing changes any more.

Design points:

* Entries stand in the order of their insertion, and a `Handle` is a position
  in that order. Handles stay valid through merges, because `resolve` follows
  the links.
* Names are unique among the entries, so looking up a name is a search for it.
  There is no second index that could disagree with the entries.
* Links only ever lead from a live entry to another live one, so a chain of
  links visits an entry at most once. The number of entries bounds `follow`.
-/

namespace SyntaxPack

/-- A position in the insertion order of a table. -/
structure Handle where
  /-- The position, from zero. -/
  slot : Nat
  deriving DecidableEq, Repr, Inhabited

/-- Names of table entries, which messages show. -/
class EntryName (κ : Type) where
  /-- The name as a message shows it. -/
  shown : κ → String

instance : EntryName String := ⟨Text.quoted⟩

/-- One entry of a table. -/
structure Entry (κ ν : Type) where
  /-- The name of the entry. -/
  name : κ
  /-- The value interned under the name. -/
  value : ν
  /-- The index, once the table is finalized and unless it left the entry out. -/
  index : Option Nat := none
  /-- How often the name was added, merged names included. -/
  hitCount : Nat := 1
  /-- The entry that this one was merged into. -/
  redirect : Option Handle := none
  deriving DecidableEq, Repr

namespace Entry

/-- Whether an entry was not merged into another one. -/
def isLive {κ ν : Type} (entry : Entry κ ν) : Bool := entry.redirect.isNone

end Entry

/-- The order in which finalization hands out indices. -/
inductive TableOrdering where
  /-- The order of insertion. -/
  | insertion
  /-- The most often added entries first, ties in the order of insertion. -/
  | hitCountDescending
  deriving DecidableEq, Repr, Inhabited

/-- A table of entries with names in `κ` and values in `ν`. -/
structure Table (κ ν : Type) where
  /-- The name of the table in messages. -/
  label : String
  /-- Whether adding a name again with a different value is an error. -/
  checkDivergence : Bool := true
  /-- All entries in the order of their insertion, merged ones included. -/
  entries : List (Entry κ ν) := []
  /-- The indexed entries in the order of their indices, once finalized. -/
  order : Option (List Handle) := none
  deriving DecidableEq, Repr

namespace Table

variable {κ ν : Type}

/-- An empty table. -/
def empty (label : String) (checkDivergence : Bool) : Table κ ν :=
  { label := label, checkDivergence := checkDivergence }

/-! ### Looking things up -/

/-- Whether indices are assigned. -/
def isFinalized (t : Table κ ν) : Bool := t.order.isSome

/-- The number of live entries. -/
def size (t : Table κ ν) : Nat := t.entries.countP Entry.isLive

/-- Follows at most `steps` links. -/
def follow (entries : List (Entry κ ν)) : Nat → Handle → Handle
  | 0, handle => handle
  | steps + 1, handle =>
    match entries[handle.slot]?.bind (·.redirect) with
    | some next => follow entries steps next
    | none => handle

/-- The surviving entry that a handle reaches. -/
def resolve (t : Table κ ν) (handle : Handle) : Handle :=
  follow t.entries t.entries.length handle

/-- The content of the surviving entry that a handle reaches. -/
def entry? (t : Table κ ν) (handle : Handle) : Option (Entry κ ν) :=
  t.entries[(t.resolve handle).slot]?

/-- The value of the surviving entry that a handle reaches. -/
def value? (t : Table κ ν) (handle : Handle) : Option ν := (t.entry? handle).map (·.value)

/-- How often the names merged into a handle's surviving entry were added. -/
def hitCount (t : Table κ ν) (handle : Handle) : Nat := (t.entry? handle).elim 0 (·.hitCount)

/-- The live entries in the order of their insertion. -/
def live (t : Table κ ν) : List (Handle × Entry κ ν) :=
  (t.entries.zipIdx.filter (·.1.isLive)).map fun (entry, slot) => (⟨slot⟩, entry)

/-- The entry at a handle itself, which must not have been merged away. -/
def rawEntry (t : Table κ ν) (handle : Handle) : Except TableError (Option (Entry κ ν)) :=
  match t.entries[handle.slot]? with
  | some entry => if entry.isLive then .ok entry else .error (.invalidated t.label handle.slot)
  | none => .ok none

/-- The entry that was first added under a name. -/
def slotOf? [DecidableEq κ] (t : Table κ ν) (name : κ) : Option Handle :=
  (t.entries.findIdx? (·.name = name)).map Handle.mk

/-- The surviving entry that a name reaches. -/
def get? [DecidableEq κ] (t : Table κ ν) (name : κ) : Option Handle :=
  (t.slotOf? name).map t.resolve

/-- The surviving entry that a name reaches, which must be in the table. -/
def require [DecidableEq κ] [EntryName κ] (t : Table κ ν) (name : κ) :
    Except TableError Handle :=
  match t.get? name with
  | some handle => .ok handle
  | none => .error (.unknownName t.label (EntryName.shown name))

/-- The index of the surviving entry that a handle reaches. -/
def indexAt [EntryName κ] (t : Table κ ν) (handle : Handle) : Except TableError Nat :=
  if t.isFinalized then
    match t.entry? handle with
    | some entry =>
      match entry.index with
      | some index => .ok index
      | none => .error (.unindexed t.label (EntryName.shown entry.name))
    | none => .error (.invalidated t.label handle.slot)
  else .error (.notFinalized t.label)

/-- The index of the surviving entry that a name reaches. -/
def indexOf [DecidableEq κ] [EntryName κ] (t : Table κ ν) (name : κ) :
    Except TableError Nat := do
  t.indexAt (← t.require name)

/-- The indexed entries in the order of their indices. -/
def indexed (t : Table κ ν) : Except TableError (List Handle) :=
  match t.order with
  | some order => .ok order
  | none => .error (.notFinalized t.label)

/-! ### Building -/

/-- Fails once the table is finalized. -/
def ensureBuilding (t : Table κ ν) : Except TableError Unit :=
  if t.isFinalized then .error (.finalized t.label) else .ok ()

/-- Changes the entry at a handle. -/
def modify (t : Table κ ν) (handle : Handle) (f : Entry κ ν → Entry κ ν) : Table κ ν :=
  { t with entries := t.entries.modify handle.slot f }

/-- Interns a value under a name. Adding a name again counts one more hit of
the entry it reaches. -/
def add [DecidableEq κ] [DecidableEq ν] [EntryName κ] (t : Table κ ν) (name : κ) (value : ν) :
    Except TableError (Handle × Table κ ν) := do
  t.ensureBuilding
  match t.get? name with
  | some handle =>
    if t.checkDivergence && (t.value? handle).any (· ≠ value) then
      .error (.divergent t.label (EntryName.shown name))
    else .ok (handle, t.modify handle fun e => { e with hitCount := e.hitCount + 1 })
  | none =>
    .ok (⟨t.entries.length⟩, { t with entries := t.entries ++ [{ name := name, value := value }] })

/-- Merges the entry that `source` reaches into the one that `target` reaches,
which takes over its hits. -/
def dedupeHandles [EntryName κ] (t : Table κ ν) (source target : Handle) :
    Except TableError (Table κ ν) := do
  t.ensureBuilding
  let source := t.resolve source
  let target := t.resolve target
  match t.entries[source.slot]? with
  | some merged =>
    if source = target then .error (.selfDedupe t.label (EntryName.shown merged.name))
    else
      let t := t.modify source fun e => { e with redirect := some target }
      .ok (t.modify target fun e => { e with hitCount := e.hitCount + merged.hitCount })
  | none => .error (.invalidated t.label source.slot)

/-- Merges the entry that the name `source` reaches into the one that `target`
reaches. -/
def dedupe [DecidableEq κ] [EntryName κ] (t : Table κ ν) (source target : κ) :
    Except TableError (Table κ ν) := do
  let source ← t.require source
  let target ← t.require target
  t.dedupeHandles source target

/-! ### Finalization -/

/-- The live entries that `keep` admits, in the given order. -/
def orderOf (t : Table κ ν) (ordering : TableOrdering) (keep : Entry κ ν → Bool) : List Handle :=
  let kept := t.live.filter fun (_, entry) => keep entry
  let sorted := match ordering with
    | .insertion => kept
    | .hitCountDescending => kept.mergeSort fun a b => b.2.hitCount ≤ a.2.hitCount
  sorted.map (·.1)

/-- Gives the live entries that `keep` admits their indices and freezes the
table. The other live entries stay without an index. Finalizing a table again
changes nothing. -/
def finalize (t : Table κ ν) (ordering : TableOrdering) (keep : Entry κ ν → Bool) : Table κ ν :=
  match t.order with
  | some _ => t
  | none =>
    let order := t.orderOf ordering keep
    { t with
      entries := t.entries.mapIdx fun slot entry => { entry with index := order.idxOf? ⟨slot⟩ }
      order := some order }

/-- Gives every live entry its index and freezes the table. -/
def finalizeAll (t : Table κ ν) (ordering : TableOrdering) : Table κ ν :=
  t.finalize ordering fun _ => true

end Table

/-- A table whose values are their own names. -/
abbrev UniqueTable (κ : Type) := Table κ κ

/-- Interns a value under itself. -/
def UniqueTable.intern {κ : Type} [DecidableEq κ] [EntryName κ] (t : UniqueTable κ) (value : κ) :
    Except TableError (Handle × UniqueTable κ) :=
  Table.add t value value

end SyntaxPack
