import SyntaxPack.Proofs.Table.History
/-!
# SyntaxPack.Proofs.Table.Cells

A table that is changed in place.

The operations on a `Table` return a new table, so one that fails cannot leave anything half
done. Here the same operations are programs on a state, with each of its fields changed by a step
of its own and with the positions of names and the number of live entries kept beside the
entries. A program that fails leaves the state as it is at that moment: that nothing was changed by
then is something to prove.

Each program runs as the operation does (`RunsAs`): it ends with the same answer in the table that
the operation returns, or with the same error and the state it started in. For that the state
has to be `Consistent`, that is, the two things kept beside the entries have to agree with them.

The steps of a program are taken one by one, with the equation of each step in the place of the
step, so a proof follows its program line by line. An error is met before any step that changes the
state, and this is where each of these proofs gets its second case from: the run is then literally
at the state that it started in.

Finalizing assigns indices in a loop, one entry at a time, where the operation on tables computes
them all at once. That the two agree is a lemma about numbering a list (`numbered_cons`).
-/

namespace SyntaxPack

/-! ### The state and its programs

Every program is written with the steps below and with `get` and `throw`, and changes the state in
no other way. -/

/-- A table together with what is kept beside its entries. -/
structure Cells (κ ν : Type) extends Table κ ν where
  /-- The positions of the entries by their names. -/
  byName : List (κ × Handle) := []
  /-- The number of live entries. -/
  live : Nat := 0

/-- A program that changes a table in place. -/
abbrev Update (κ ν α : Type) := EStateM TableError (Cells κ ν) α

variable {κ ν : Type}

namespace Cells

/-- A new table. -/
def empty (label : String) (checkDivergence : Bool) : Cells κ ν :=
  { toTable := .empty label checkDivergence }

/-- The state with other entries. -/
def withEntries (cells : Cells κ ν) (entries : List (Entry κ ν)) : Cells κ ν :=
  { cells with entries := entries }

/-- Changes the entry at a handle. -/
def setEntry (handle : Handle) (f : Entry κ ν → Entry κ ν) : Update κ ν PUnit :=
  modify fun cells => cells.withEntries (cells.entries.modify handle.slot f)

/-- Puts a new entry after the others. -/
def pushEntry (entry : Entry κ ν) : Update κ ν PUnit :=
  modify fun cells => cells.withEntries (cells.entries ++ [entry])

/-- Records the position of a name. -/
def setPosition (name : κ) (handle : Handle) : Update κ ν PUnit :=
  modify fun cells => { cells with byName := (name, handle) :: cells.byName }

/-- Sets the number of live entries. -/
def setLive (f : Nat → Nat) : Update κ ν PUnit :=
  modify fun cells => { cells with live := f cells.live }

/-- Gives the entry at a handle its index. -/
def setIndex (position : Handle × Nat) : Update κ ν PUnit :=
  setEntry position.1 fun e => { e with index := some position.2 }

/-- Freezes the table. -/
def setOrder (order : List Handle) : Update κ ν PUnit :=
  modify fun cells => { cells with order := some order }

/-- Fails once the table is finalized. -/
def ensureBuilding : Update κ ν PUnit := do
  let cells ← get
  if cells.isFinalized then throw (.finalized cells.label) else pure ⟨⟩

/-- Interns a value under a name. -/
def add [DecidableEq κ] [DecidableEq ν] [EntryName κ] (name : κ) (value : ν) :
    Update κ ν Handle := do
  ensureBuilding
  let cells ← get
  match cells.byName.lookup name with
  | some position =>
    let handle := cells.resolve position
    if cells.checkDivergence && (cells.entries[handle.slot]?).any (·.value ≠ value) then
      throw (.divergent cells.label (EntryName.shown name))
    else
      setEntry handle fun e => { e with hitCount := e.hitCount + 1 }
      return handle
  | none =>
    let handle := ⟨cells.entries.length⟩
    pushEntry { name := name, value := value }
    setPosition name handle
    setLive (· + 1)
    return handle

/-- The surviving entry that a name reaches, which must be in the table. -/
def find [DecidableEq κ] [EntryName κ] (name : κ) : Update κ ν Handle := do
  let cells ← get
  match cells.byName.lookup name with
  | some position => return cells.resolve position
  | none => throw (.unknownName cells.label (EntryName.shown name))

/-- Merges one entry into another, which must not have been merged away itself. The check comes
first, although callers only ever hand over live entries. -/
def redirect (source target : Handle) : Update κ ν PUnit := do
  let cells ← get
  if (cells.entries[target.slot]?).any (! ·.isLive) then
    throw (.invalidated cells.label target.slot)
  else
    let hits := (cells.entries[source.slot]?).elim 0 (·.hitCount)
    setEntry source fun e => { e with redirect := some target }
    setEntry target fun e => { e with hitCount := e.hitCount + hits }
    setLive (· - 1)

/-- Merges the entry that `source` reaches into the one that `target` reaches. -/
def dedupeHandles [EntryName κ] (source target : Handle) : Update κ ν PUnit := do
  ensureBuilding
  let cells ← get
  let source := cells.resolve source
  let target := cells.resolve target
  match cells.entries[source.slot]? with
  | some merged =>
    if source = target then throw (.selfDedupe cells.label (EntryName.shown merged.name))
    else redirect source target
  | none => throw (.invalidated cells.label source.slot)

/-- Merges the entry that the name `source` reaches into the one that `target` reaches. -/
def dedupe [DecidableEq κ] [EntryName κ] (source target : κ) : Update κ ν PUnit := do
  let source ← find source
  let target ← find target
  dedupeHandles source target

/-- Gives the live entries that `keep` admits their indices, one after another, and freezes the
table. A table that is frozen already is left alone, and its order is returned again. -/
def finalize (ordering : TableOrdering) (keep : Entry κ ν → Bool) : Update κ ν (List Handle) := do
  let cells ← get
  match cells.order with
  | some order => return order
  | none =>
    let order := cells.orderOf ordering keep
    order.zipIdx.forM setIndex
    setOrder order
    return order

/-! ### Positions and counts

What is kept beside the entries is there to be fast, and has to be kept in step by hand. Each change
of the table has a lemma that it is. -/

/-- What is kept beside the entries agrees with them, and no entry has an index too early. The last
is what makes assigning indices one by one the same as assigning all of them. -/
structure Consistent [DecidableEq κ] (cells : Cells κ ν) : Prop where
  byName : ∀ name, cells.byName.lookup name = cells.slotOf? name
  live : cells.live = cells.size
  unindexed : cells.order = none → ∀ index ∈ cells.entries.map (·.index), index = none

variable {cells : Cells κ ν} {source target a : Handle}

section Consistency

variable [DecidableEq κ]

theorem consistent_empty (label : String) (checkDivergence : Bool) :
    (empty label checkDivergence : Cells κ ν).Consistent :=
  ⟨fun _ => rfl, rfl, fun _ _ hindex => absurd hindex List.not_mem_nil⟩

/-- One more hit is seen neither in the names nor in the number of live entries. -/
theorem Consistent.hit (h : cells.Consistent) (a : Handle) : Consistent
    ⟨cells.toTable.modify a fun e => { e with hitCount := e.hitCount + 1 }, cells.byName,
      cells.live⟩ := by
  have hsame := cells.toTable.sameEntries_addHits a 1
  have hindices := cells.toTable.map_modify a (·.index)
    (f := fun e => { e with hitCount := e.hitCount + 1 }) fun _ => rfl
  refine ⟨fun name => ?_, ?_, fun horder => ?_⟩
  · exact (h.byName name).trans (Table.slotOf?_congr hsame.names name).symm
  · exact h.live.trans (Table.size_congr hsame.redirects).symm
  · rw [hindices]
    exact h.unindexed horder

/-- A new entry is recorded under its name. -/
theorem Consistent.append (h : cells.Consistent) {name : κ} {value : ν}
    (hnew : cells.slotOf? name = none) : Consistent
    ⟨cells.toTable.append { name := name, value := value },
      (name, ⟨cells.entries.length⟩) :: cells.byName, cells.live + 1⟩ := by
  refine ⟨fun other => ?_, ?_, fun horder index hindex => ?_⟩
  · rw [Table.slotOf?_append]
    by_cases hname : name = other
    · subst hname
      rw [hnew, if_pos rfl, Option.none_or, List.lookup_cons_self]
    · rw [if_neg hname, Option.or_none, lookup_cons_of_ne (Ne.symm hname), h.byName]
  · rw [h.live, Table.size, Table.size, Table.append, List.countP_append]
    rfl
  · rw [Table.append, List.map_append, List.mem_append] at hindex
    rcases hindex with hold | hlast
    · exact h.unindexed horder index hold
    · exact List.mem_singleton.mp hlast

/-- A merge takes one entry from the live ones. -/
theorem Consistent.mergeInto (h : cells.Consistent) (hsource : cells.IsLive source)
    (hits : Nat) : Consistent
    ⟨cells.toTable.mergeInto source target hits, cells.byName, cells.live - 1⟩ := by
  refine ⟨fun name => ?_, ?_, fun horder => ?_⟩
  · exact (h.byName name).trans (Table.slotOf?_congr Table.names_mergeInto name).symm
  · have hsize : (cells.toTable.mergeInto source target hits).size + 1 = cells.size :=
      Table.size_mergeInto hsource
    change cells.live - 1 = (cells.toTable.mergeInto source target hits).size
    rw [h.live]
    omega
  · rw [Table.mergeInto, Table.map_modify, Table.map_modify]
    · exact h.unindexed horder
    · exact fun _ => rfl
    · exact fun _ => rfl

/-- Finalization is seen neither in the names nor in the number of live entries. -/
theorem Consistent.finalize (h : cells.Consistent) (hbuilding : cells.order = none)
    (ordering : TableOrdering) (keep : Entry κ ν → Bool) :
    Consistent ⟨cells.toTable.finalize ordering keep, cells.byName, cells.live⟩ := by
  have hsame := cells.toTable.sameEntries_finalize ordering keep
  refine ⟨fun name => ?_, ?_, fun horder => ?_⟩
  · exact (h.byName name).trans (Table.slotOf?_congr hsame.names name).symm
  · exact h.live.trans (Table.size_finalize _ ordering keep).symm
  · rw [Table.order_finalize hbuilding] at horder
    cases horder

end Consistency

/-! ### Runs

The runs of the programs are compared with what the operations return. `RunsAs` has no case in which
a run fails in a state other than the first. -/

/-- A run ends as an operation does: with its answer and in its table, or with its error and
where it started. -/
inductive RunsAs [DecidableEq κ] {α : Type} (cells : Cells κ ν) :
    EStateM.Result TableError (Cells κ ν) α → Except TableError (α × Table κ ν) → Prop
  | ok {answer : α} {after : Cells κ ν} (consistent : after.Consistent) :
      RunsAs cells (.ok answer after) (.ok (answer, after.toTable))
  | error {e : TableError} : RunsAs cells (.error e cells) (.error e)

section RunsAs

variable [DecidableEq κ] {α : Type} {result : EStateM.Result TableError (Cells κ ν) α}
  {outcome : Except TableError (α × Table κ ν)}

theorem RunsAs.eq_ok {answer : α} {t : Table κ ν} (h : cells.RunsAs result (.ok (answer, t))) :
    ∃ after, result = .ok answer after ∧ after.toTable = t ∧ after.Consistent := by
  cases h with
  | ok consistent => exact ⟨_, rfl, rfl, consistent⟩

theorem RunsAs.eq_error {e : TableError} (h : cells.RunsAs result (.error e)) :
    result = .error e cells := by
  cases h with
  | error => rfl

theorem RunsAs.of_ok {answer : α} {after : Cells κ ν} (h : cells.RunsAs (.ok answer after) outcome) :
    outcome = .ok (answer, after.toTable) ∧ after.Consistent := by
  cases h with
  | ok consistent => exact ⟨rfl, consistent⟩

theorem RunsAs.of_error {e : TableError} {after : Cells κ ν}
    (h : cells.RunsAs (.error e after) outcome) : after = cells ∧ outcome = .error e := by
  cases h with
  | error => exact ⟨rfl, rfl⟩

end RunsAs

theorem ensureBuilding_of_building (h : cells.order = none) :
    ensureBuilding cells = .ok ⟨⟩ cells := by
  have hbuilding : cells.isFinalized = false := by rw [Table.isFinalized, h, Option.isSome_none]
  rw [ensureBuilding, run_bind_of_ok run_get, hbuilding]
  rfl

theorem ensureBuilding_of_finalized (h : cells.order ≠ none) :
    ensureBuilding cells = .error (.finalized cells.label) cells := by
  have hfinal : cells.isFinalized = true := Option.isSome_iff_ne_none.mpr h
  rw [ensureBuilding, run_bind_of_ok run_get, if_pos hfinal]
  rfl

section Specs

variable [DecidableEq κ] [EntryName κ]

/-- Adding runs as the operation does. All checks come before the first change: that the table is
not finalized, and that the values do not diverge. -/
theorem add_runsAs [DecidableEq ν] (hc : cells.Consistent) (hw : cells.WellFormed) (name : κ)
    (value : ν) : cells.RunsAs (add name value cells) (cells.toTable.add name value) := by
  by_cases hbuilding : cells.order = none
  · rw [add, run_bind_of_ok (ensureBuilding_of_building hbuilding), run_bind_of_ok run_get, hc.byName]
    -- The positions kept beside the entries tell a new name from a known one.
    cases hslot : cells.slotOf? name with
    | none =>
        have hget : cells.get? name = none := by rw [Table.get?, hslot, Option.map_none]
        rw [Table.add_new hbuilding hget]
        exact .ok (hc.append hslot)
    | some position =>
        have hget : cells.get? name = some (cells.resolve position) := by
          rw [Table.get?, hslot, Option.map_some]
        obtain ⟨entry, hentry, hlive⟩ := hw.get?_live hget
        have hvalue : cells.value? (cells.resolve position) = some entry.value := by
          rw [Table.value?, Table.entry?, Table.IsLive.resolve_eq ⟨entry, hentry, hlive⟩, hentry,
            Option.map_some]
        rw [Table.add_again hbuilding hget hvalue]
        dsimp only
        rw [hentry, Option.any_some]
        by_cases hdiffer : cells.checkDivergence = true ∧ entry.value ≠ value
        · rw [if_pos hdiffer, if_pos (by simpa using hdiffer)]
          exact .error
        · rw [if_neg hdiffer, if_neg (by simpa using hdiffer)]
          exact .ok (hc.hit _)
  · rw [add, run_bind_of_error (ensureBuilding_of_finalized hbuilding), Table.add_of_finalized hbuilding]
    exact .error

omit [DecidableEq κ] [EntryName κ] in
/-- An entry that was not merged away is not refused as a target. -/
theorem redirect_of_isLive {merged : Entry κ ν} (htarget : cells.IsLive target)
    (hmerged : cells.entries[source.slot]? = some merged) : redirect source target cells =
      .ok ⟨⟩ ⟨cells.toTable.mergeInto source target merged.hitCount, cells.byName,
        cells.live - 1⟩ := by
  obtain ⟨entry, hentry, hlive⟩ := htarget
  have hvalid : ¬(cells.entries[target.slot]?).any (! ·.isLive) = true := by
    simp [hentry, Entry.isLive, hlive]
  rw [redirect, run_bind_of_ok run_get, if_neg hvalid, hmerged]
  rfl

/-- Merging handles runs as the operation does. The two entries are live, being what handles reach,
so the last check cannot fail. -/
theorem dedupeHandles_runsAs (hc : cells.Consistent) (hw : cells.WellFormed)
    (hsource : source.slot < cells.entries.length) (htarget : target.slot < cells.entries.length) :
    cells.RunsAs (dedupeHandles source target cells)
      ((cells.toTable.dedupeHandles source target).map (PUnit.unit, ·)) := by
  by_cases hbuilding : cells.order = none
  · have hlive := hw.resolve_live hsource
    obtain ⟨merged, hmerged, -⟩ := id hlive
    rw [dedupeHandles, run_bind_of_ok (ensureBuilding_of_building hbuilding), run_bind_of_ok run_get,
      Table.dedupeHandles_of_building hbuilding hmerged]
    simp only [hmerged]
    by_cases hself : cells.resolve source = cells.resolve target
    · rw [if_pos hself, if_pos hself]
      exact .error
    · rw [if_neg hself, if_neg hself, redirect_of_isLive (hw.resolve_live htarget) hmerged]
      exact .ok (hc.mergeInto hlive merged.hitCount)
  · rw [dedupeHandles, run_bind_of_error (ensureBuilding_of_finalized hbuilding),
      Table.dedupeHandles_of_finalized hbuilding]
    exact .error

theorem find_of_get? (hc : cells.Consistent) {name : κ} (hget : cells.get? name = some a) :
    find name cells = .ok a cells := by
  obtain ⟨position, hslot, rfl⟩ := Option.map_eq_some_iff.mp hget
  rw [find, run_bind_of_ok run_get, hc.byName, hslot]
  rfl

theorem find_of_absent (hc : cells.Consistent) {name : κ} (hget : cells.get? name = none) :
    find name cells = .error (.unknownName cells.label (EntryName.shown name)) cells := by
  rw [find, run_bind_of_ok run_get, hc.byName, Option.map_eq_none_iff.mp hget]
  rfl

/-- Both names are looked up before anything else is checked. -/
theorem dedupe_runsAs (hc : cells.Consistent) (hw : cells.WellFormed) (source target : κ) :
    cells.RunsAs (dedupe source target cells)
      ((cells.toTable.dedupe source target).map (PUnit.unit, ·)) := by
  cases hsource : cells.get? source with
  | none =>
      rw [dedupe, run_bind_of_error (find_of_absent hc hsource), Table.dedupe, Table.require, hsource]
      exact .error
  | some a =>
      have hfound := Table.require_eq_ok.mpr hsource
      rw [dedupe, run_bind_of_ok (find_of_get? hc hsource), Table.dedupe, hfound, ok_bind]
      cases htarget : cells.get? target with
      | none =>
          rw [run_bind_of_error (find_of_absent hc htarget), Table.require, htarget]
          exact .error
      | some b =>
          rw [run_bind_of_ok (find_of_get? hc htarget), Table.require_eq_ok.mpr htarget, ok_bind]
          exact dedupeHandles_runsAs hc hw (hw.get?_live hsource).lt (hw.get?_live htarget).lt

end Specs

/-! ### Indices

Indices are assigned from the front of the order, and each assignment is one step. -/

/-- The entries with the positions in a list as their indices, counted from `first`. -/
def numbered (order : List Handle) (first : Nat) (entries : List (Entry κ ν)) : List (Entry κ ν) :=
  entries.mapIdx fun slot entry =>
    { entry with index := ((order.idxOf? ⟨slot⟩).map (· + first)).or entry.index }

theorem numbered_nil (first : Nat) (entries : List (Entry κ ν)) :
    numbered [] first entries = entries := by
  refine List.ext_getElem? fun slot => ?_
  rw [numbered, List.getElem?_mapIdx]
  cases entries[slot]? with
  | none => rfl
  | some entry => rfl

/-- A list without repetitions can be numbered from its front. -/
theorem numbered_cons {handle : Handle} {order : List Handle} (hnew : handle ∉ order) (first : Nat)
    (entries : List (Entry κ ν)) :
    numbered order (first + 1)
        (entries.modify handle.slot fun e => { e with index := some first }) =
      numbered (handle :: order) first entries := by
  refine List.ext_getElem? fun slot => ?_
  rw [numbered, numbered, List.getElem?_mapIdx, List.getElem?_mapIdx, List.getElem?_modify,
    List.idxOf?_cons]
  cases entries[slot]? with
  | none => rfl
  | some entry =>
      by_cases hslot : handle.slot = slot
      · obtain rfl : handle = ⟨slot⟩ := Handle.slot_inj.mp hslot
        simp [List.idxOf?_eq_none_iff.mpr hnew]
      · have hother : handle ≠ ⟨slot⟩ := fun heq => hslot (Handle.slot_inj.mpr heq)
        simp [hslot, hother, Function.comp_def, Nat.add_right_comm, Nat.add_assoc]

/-- Indices are assigned one after another. -/
theorem forM_setIndex {order : List Handle} (hnodup : order.Nodup) (first : Nat)
    (cells : Cells κ ν) : (order.zipIdx first).forM setIndex cells =
      .ok ⟨⟩ (cells.withEntries (numbered order first cells.entries)) := by
  induction order generalizing first cells with
  | nil =>
      rw [numbered_nil]
      rfl
  | cons handle order ih =>
      obtain ⟨hnew, hrest⟩ := List.nodup_cons.mp hnodup
      rw [← numbered_cons hnew]
      exact ih hrest (first + 1)
        (cells.withEntries (cells.entries.modify handle.slot fun e => { e with index := some first }))

/-- Finalization numbers entries that have no indices yet. -/
theorem finalize_eq_numbered {t : Table κ ν} (hbuilding : t.order = none)
    (hunindexed : ∀ index ∈ t.entries.map (·.index), index = none) (ordering : TableOrdering)
    (keep : Entry κ ν → Bool) : t.finalize ordering keep = { t with
      entries := numbered (t.orderOf ordering keep) 0 t.entries
      order := some (t.orderOf ordering keep) } := by
  have hentries : numbered (t.orderOf ordering keep) 0 t.entries =
      t.entries.mapIdx fun slot entry =>
        { entry with index := (t.orderOf ordering keep).idxOf? ⟨slot⟩ } := by
    refine List.ext_getElem? fun slot => ?_
    rw [numbered, List.getElem?_mapIdx, List.getElem?_mapIdx]
    cases hentry : t.entries[slot]? with
    | none => rfl
    | some entry =>
        have hindex := hunindexed entry.index (List.mem_map_of_mem (List.mem_of_getElem? hentry))
        simp [hindex]
  rw [hentries]
  simp only [Table.finalize, hbuilding]

/-- Finalizing runs as the operation does, and cannot fail: the indices that are assigned in place
are those that finalization assigns at once. -/
theorem finalize_runsAs [DecidableEq κ] (hc : cells.Consistent) (ordering : TableOrdering)
    (keep : Entry κ ν → Bool) : ∃ order, (cells.toTable.finalize ordering keep).order = some order ∧
      cells.RunsAs (finalize ordering keep cells)
        (.ok (order, cells.toTable.finalize ordering keep)) := by
  cases horder : cells.order with
  | some order =>
      have hsame : cells.toTable.finalize ordering keep = cells.toTable := by
        simp only [Table.finalize, horder]
      rw [finalize, run_bind_of_ok run_get, hsame, horder]
      exact ⟨order, rfl, .ok hc⟩
  | none =>
      have hassigned := forM_setIndex (cells.nodup_orderOf ordering keep) 0 cells
      have hconsistent := hc.finalize horder ordering keep
      refine ⟨_, Table.order_finalize horder ordering keep, ?_⟩
      rw [finalize, run_bind_of_ok run_get, horder]
      dsimp only
      rw [run_bind_of_ok hassigned]
      rw [finalize_eq_numbered horder (hc.unindexed horder)] at hconsistent ⊢
      exact .ok hconsistent

end Cells

end SyntaxPack
