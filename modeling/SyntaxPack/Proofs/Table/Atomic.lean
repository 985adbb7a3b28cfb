import SyntaxPack.Proofs.Table.Cells
import SyntaxPack.Proofs.Table.Indexed
/-!
# SyntaxPack.Proofs.Table.Atomic

Calls that fail change nothing.

Calls are performed on a table in place, one after another, and a call that fails is followed by
the next one in whatever state it left. Beside them runs the history of the same calls, in which a
table is replaced only by one that an operation returned. The two never come apart: in place, too, a
call that fails leaves the state it started in (`Atomic`).
-/

namespace SyntaxPack

namespace Cells

open Table

variable {κ ν : Type} {cells : Cells κ ν} [DecidableEq κ] [DecidableEq ν] [EntryName κ]

/-- Performs a call in place. -/
def update : Call κ ν → Update κ ν PUnit
  | .add name value => do
    let _ ← add name value
    pure ⟨⟩
  | .dedupe source target => dedupe source target
  | .dedupeHandles source target => dedupeHandles source target
  | .finalize ordering keep => do
    let _ ← finalize ordering keep
    pure ⟨⟩

/-- The state that a call leaves, whether it fails or not. -/
def perform (cells : Cells κ ν) (call : Call κ ν) : Cells κ ν :=
  match update call cells with
  | .ok _ after => after
  | .error _ after => after

/-- Performs calls one after another. -/
def run (cells : Cells κ ν) (calls : List (Call κ ν)) : Cells κ ν := calls.foldl perform cells

/-! ### Finalized tables

Every operation on a finalized table returns before it changes anything. Merging by name looks up both
names before that, and finalizing again is no failure. -/

/-- How a call fails on a finalized table: names are looked up before anything else. -/
inductive Refusal (t : Table κ ν) : Call κ ν → TableError → Prop
  | add {name : κ} {value : ν} : Refusal t (.add name value) (.finalized t.label)
  | dedupeHandles {source target : Handle} :
      Refusal t (.dedupeHandles source target) (.finalized t.label)
  | dedupe {source target : κ} (hsource : source ∈ t.names) (htarget : target ∈ t.names) :
      Refusal t (.dedupe source target) (.finalized t.label)
  | unknownSource {source target : κ} (hsource : source ∉ t.names) :
      Refusal t (.dedupe source target) (.unknownName t.label (EntryName.shown source))
  | unknownTarget {source target : κ} (hsource : source ∈ t.names) (htarget : target ∉ t.names) :
      Refusal t (.dedupe source target) (.unknownName t.label (EntryName.shown target))

omit [DecidableEq ν] [EntryName κ] [DecidableEq κ] in
/-- Finalizing again returns the order that was frozen. -/
theorem finalize_of_finalized {order : List Handle} (h : cells.order = some order)
    (ordering : TableOrdering) (keep : Entry κ ν → Bool) :
    finalize ordering keep cells = .ok order cells := by
  rw [finalize, run_bind_of_ok run_get, h]
  rfl

/-- A finalized table refuses every call but another finalization. -/
theorem update_refused (hc : cells.Consistent) (h : cells.order ≠ none) (call : Call κ ν) :
    (∃ ordering keep, call = .finalize ordering keep) ∨
      ∃ e, Refusal cells.toTable call e ∧ update call cells = .error e cells := by
  cases call with
  | add name value =>
      refine .inr ⟨_, .add, ?_⟩
      rw [update, add, bind_assoc, run_bind_of_error (ensureBuilding_of_finalized h)]
  | dedupe source target =>
      right
      rw [update, dedupe]
      cases hsource : cells.get? source with
      | none =>
          exact ⟨_, .unknownSource (get?_eq_none_iff.mp hsource),
            run_bind_of_error (find_of_absent hc hsource)⟩
      | some a =>
          have hmem := mem_names_of_get? hsource
          rw [run_bind_of_ok (find_of_get? hc hsource)]
          cases htarget : cells.get? target with
          | none =>
              exact ⟨_, .unknownTarget hmem (get?_eq_none_iff.mp htarget),
                run_bind_of_error (find_of_absent hc htarget)⟩
          | some b =>
              refine ⟨_, .dedupe hmem (mem_names_of_get? htarget), ?_⟩
              rw [run_bind_of_ok (find_of_get? hc htarget), dedupeHandles,
                run_bind_of_error (ensureBuilding_of_finalized h)]
  | dedupeHandles source target =>
      refine .inr ⟨_, .dedupeHandles, ?_⟩
      rw [update, dedupeHandles, run_bind_of_error (ensureBuilding_of_finalized h)]
  | finalize ordering keep => exact .inl ⟨ordering, keep, rfl⟩

theorem perform_of_finalized (hc : cells.Consistent) (h : cells.order ≠ none) (call : Call κ ν) :
    cells.perform call = cells := by
  rcases update_refused hc h call with ⟨ordering, keep, rfl⟩ | ⟨e, -, hrun⟩
  · obtain ⟨order, horder⟩ := Option.ne_none_iff_exists'.mp h
    rw [perform, update, run_bind_of_ok (finalize_of_finalized horder ordering keep)]
    rfl
  · rw [perform, hrun]

/-- Nothing that is called on a finalized table changes it. -/
theorem run_of_finalized (hc : cells.Consistent) (h : cells.order ≠ none) (calls : List (Call κ ν)) :
    cells.run calls = cells := by
  induction calls with
  | nil => rfl
  | cons call calls ih =>
      rw [run, List.foldl_cons, perform_of_finalized hc h]
      exact ih

/-! ### Calls in place

`InStep` ties the table in place to the history of its calls. That a call keeps it is shown for one
call from the runs of the operations (`Cells.RunsAs`), and for a sequence by induction. -/

/-- The table in place is the one of a history. -/
structure InStep (past : History κ ν) (cells : Cells κ ν) : Prop where
  agrees : past.Agrees
  consistent : cells.Consistent
  table_eq : cells.toTable = past.table

namespace InStep

variable {past : History κ ν} {call : Call κ ν} {after : Cells κ ν} {e : TableError}

omit [DecidableEq ν] [EntryName κ] in
theorem wellFormed (h : InStep past cells) : cells.WellFormed :=
  h.table_eq ▸ h.agrees.linked.wellFormed

omit [DecidableEq ν] [EntryName κ] in
theorem lt_of_issued (h : InStep past cells) {a : Handle} (ha : past.Issued a) :
    a.slot < cells.entries.length :=
  h.table_eq ▸ (h.agrees.issued_iff a).mp ha

omit [DecidableEq ν] [EntryName κ] in
theorem start (label : String) (checkDivergence : Bool) :
    InStep (History.start label checkDivergence : History κ ν) (empty label checkDivergence) :=
  ⟨History.agrees_start label checkDivergence, consistent_empty label checkDivergence, rfl⟩

/-- A call in place runs as the operation that it calls. -/
theorem update_runsAs (h : InStep past cells) (hadmits : past.Admits call) :
    cells.RunsAs (update call cells)
      ((past.apply call).map fun next => (PUnit.unit, next.table)) := by
  cases call with
  | add name value =>
      have hrun := add_runsAs h.consistent h.wellFormed name value
      rw [h.table_eq] at hrun
      rw [update, History.apply]
      cases hadd : past.table.add name value with
      | error e =>
          rw [hadd] at hrun
          rw [run_bind_of_error hrun.eq_error]
          exact .error
      | ok result =>
          obtain ⟨handle, table⟩ := result
          rw [hadd] at hrun
          obtain ⟨after, hafter, rfl, hconsistent⟩ := hrun.eq_ok
          rw [run_bind_of_ok hafter]
          exact .ok hconsistent
  | dedupe source target =>
      have hrun := dedupe_runsAs h.consistent h.wellFormed source target
      rw [h.table_eq] at hrun
      rw [update, History.apply]
      cases hdedupe : past.table.dedupe source target with
      | error e =>
          rw [hdedupe] at hrun
          exact hrun
      | ok table =>
          obtain ⟨a, b, ha, hb, -⟩ := dedupe_eq_ok hdedupe
          rw [hdedupe] at hrun
          rw [require_eq_ok.mpr ha, require_eq_ok.mpr hb]
          exact hrun
  | dedupeHandles source target =>
      have hrun := dedupeHandles_runsAs h.consistent h.wellFormed (h.lt_of_issued hadmits.1)
        (h.lt_of_issued hadmits.2)
      rw [h.table_eq] at hrun
      rw [update, History.apply]
      cases hmerge : past.table.dedupeHandles source target with
      | error e =>
          rw [hmerge] at hrun
          exact hrun
      | ok table =>
          rw [hmerge] at hrun
          exact hrun
  | finalize ordering keep =>
      obtain ⟨order, -, hrun⟩ := finalize_runsAs h.consistent ordering keep
      rw [h.table_eq] at hrun
      obtain ⟨after, hafter, htable, hconsistent⟩ := hrun.eq_ok
      rw [update, History.apply, ← htable, run_bind_of_ok hafter]
      exact .ok hconsistent

theorem eq_ok (h : InStep past cells) (hadmits : past.Admits call)
    (hrun : update call cells = .ok ⟨⟩ after) :
    ∃ next, past.apply call = .ok next ∧ InStep next after := by
  have hruns := h.update_runsAs hadmits
  rw [hrun] at hruns
  obtain ⟨houtcome, hconsistent⟩ := hruns.of_ok
  cases hcall : past.apply call with
  | error e =>
      rw [hcall] at houtcome
      cases houtcome
  | ok next =>
      rw [hcall] at houtcome
      have htable := (Prod.mk.inj (Except.ok.inj houtcome)).2
      exact ⟨next, rfl, h.agrees.apply hadmits hcall, hconsistent, htable.symm⟩

theorem eq_error (h : InStep past cells) (hadmits : past.Admits call)
    (hrun : update call cells = .error e after) : after = cells ∧ past.apply call = .error e := by
  have hruns := h.update_runsAs hadmits
  rw [hrun] at hruns
  obtain ⟨hafter, houtcome⟩ := hruns.of_error
  refine ⟨hafter, ?_⟩
  cases hcall : past.apply call with
  | error other =>
      rw [hcall] at houtcome
      exact congrArg Except.error (Except.error.inj houtcome)
  | ok next =>
      rw [hcall] at houtcome
      cases houtcome

theorem perform (h : InStep past cells) (hadmits : past.Admits call) :
    InStep (past.perform call) (cells.perform call) := by
  rw [Cells.perform, History.perform]
  cases hrun : update call cells with
  | ok answer after =>
      obtain ⟨next, hcall, hnext⟩ := h.eq_ok hadmits hrun
      rw [hcall]
      exact hnext
  | error e after =>
      obtain ⟨rfl, hcall⟩ := h.eq_error hadmits hrun
      rw [hcall]
      exact h

theorem run (h : InStep past cells) {calls : List (Call κ ν)} (hadmits : past.AdmitsAll calls) :
    InStep (past.run calls) (cells.run calls) := by
  induction calls generalizing past cells with
  | nil => exact h
  | cons call calls ih => exact ih (h.perform hadmits.1) hadmits.2

end InStep

/-! ### Errors

A handle that was issued resolves to a live entry, so merging never finds that an entry is gone. -/

/-- What a call can fail with. That an entry was merged away is none of it. -/
inductive CallError (label : String) : TableError → Prop
  | finalized : CallError label (.finalized label)
  | divergent (name : String) : CallError label (.divergent label name)
  | unknownName (name : String) : CallError label (.unknownName label name)
  | selfDedupe (name : String) : CallError label (.selfDedupe label name)

section Errors

variable {past : History κ ν} {e : TableError}

omit [DecidableEq ν] in
/-- Merges resolve their handles first, and what a handle resolves to was not merged away. -/
theorem dedupeHandles_callError (h : past.Agrees) {source target : Handle}
    (hsource : past.Issued source) (hrun : past.table.dedupeHandles source target = .error e) :
    CallError past.table.label e := by
  have hlt := (h.issued_iff source).mp hsource
  rcases h.linked.wellFormed.dedupeHandles_eq_error hlt hrun with rfl | ⟨name, rfl⟩
  · exact .finalized
  · exact .selfDedupe name

theorem apply_callError (h : past.Agrees) {call : Call κ ν} (hadmits : past.Admits call)
    (hrun : past.apply call = .error e) : CallError past.table.label e := by
  cases call with
  | add name value =>
      rcases bind_eq_error.mp hrun with hadd | ⟨result, -, hnext⟩
      · rcases add_eq_error hadd with rfl | rfl
        · exact .finalized
        · exact .divergent _
      · cases hnext
  | dedupe source target =>
      rcases bind_eq_error.mp hrun with hdedupe | ⟨table, hdedupe, hnext⟩
      · rcases bind_eq_error.mp hdedupe with hsource | ⟨a, hsource, hrest⟩
        · exact require_eq_error hsource ▸ .unknownName _
        · rcases bind_eq_error.mp hrest with htarget | ⟨b, -, hmerge⟩
          · exact require_eq_error htarget ▸ .unknownName _
          · exact dedupeHandles_callError h (h.issued_of_get? (require_eq_ok.mp hsource)) hmerge
      · -- the names that were merged are found again
        obtain ⟨a, b, ha, hb, -⟩ := dedupe_eq_ok hdedupe
        rw [require_eq_ok.mpr ha, require_eq_ok.mpr hb] at hnext
        cases hnext
  | dedupeHandles source target =>
      rcases bind_eq_error.mp hrun with hmerge | ⟨table, -, hnext⟩
      · exact dedupeHandles_callError h hadmits.1 hmerge
      · cases hnext
  | finalize ordering keep => cases hrun

end Errors

/-! ### Histories in place

The main result, from a new table on, with calls that succeed and calls that fail in any order. -/

/-- What calls in place leave behind when they succeed, when they fail, and once the table is
finalized. -/
structure Atomic (past : History κ ν) (cells : Cells κ ν) : Prop where
  /-- The table in place is the one that the operations returned. -/
  table_eq : cells.toTable = past.table
  /-- What is kept beside the entries agrees with them. -/
  consistent : cells.Consistent
  /-- A call that succeeds leaves the table that the operation returns. -/
  succeeds : ∀ call after, past.Admits call → update call cells = .ok ⟨⟩ after →
    ∃ next, past.apply call = .ok next ∧ after.toTable = next.table ∧ after.Consistent
  /-- A call that fails does so as the operation does, and leaves everything as it was. -/
  fails : ∀ call e after, past.Admits call → update call cells = .error e after →
    after = cells ∧ past.apply call = .error e
  /-- No call fails because an entry was merged away. -/
  not_invalidated : ∀ call after label slot, past.Admits call →
    update call cells ≠ .error (.invalidated label slot) after
  /-- A finalized table refuses whatever would change it. -/
  refused : cells.order ≠ none → ∀ call, (∃ ordering keep, call = .finalize ordering keep) ∨
    ∃ e, Refusal cells.toTable call e ∧ update call cells = .error e cells
  /-- Finalizing again returns the order that was frozen. -/
  finalized : ∀ order, cells.order = some order → ∀ ordering keep,
    finalize ordering keep cells = .ok order cells
  /-- Nothing that is called on a finalized table changes it. -/
  frozen : cells.order ≠ none → ∀ calls, cells.run calls = cells

/-- Whatever was called on a new table, the next call that fails changes nothing, and after
finalization none does. -/
theorem atomic_run (label : String) (checkDivergence : Bool) {calls : List (Call κ ν)}
    (h : (History.start label checkDivergence).AdmitsAll calls) :
    Atomic ((History.start label checkDivergence).run calls)
      ((empty label checkDivergence : Cells κ ν).run calls) := by
  have hstep := (InStep.start label checkDivergence).run h
  refine ⟨hstep.table_eq, hstep.consistent, fun call after hadmits hrun => ?_,
    fun call e after hadmits => hstep.eq_error hadmits, fun call after other slot hadmits hrun => ?_,
    update_refused hstep.consistent, fun order => finalize_of_finalized,
    run_of_finalized hstep.consistent⟩
  · obtain ⟨next, hcall, hnext⟩ := hstep.eq_ok hadmits hrun
    exact ⟨next, hcall, hnext.table_eq, hnext.consistent⟩
  · obtain ⟨-, hcall⟩ := hstep.eq_error hadmits hrun
    cases apply_callError hstep.agrees hadmits hcall

/-- Three names that are merged into one, with calls that fail among them: the last of these comes
after finalization, which left one entry with an index. -/
theorem atomic_threeNames :
    Atomic ((History.start "Names" true).run History.threeNames)
        ((empty "Names" true).run History.threeNames) ∧
      ((empty "Names" true).run History.threeNames).order = some [⟨2⟩] ∧
      ((empty "Names" true).run History.threeNames).live = 1 := by
  refine ⟨atomic_run "Names" true ?_, ?_, by decide +kernel⟩
  · exact ⟨trivial, trivial, trivial, trivial, trivial, trivial,
      ⟨⟨"b", by decide +kernel⟩, ⟨"c", by decide +kernel⟩⟩, trivial, trivial, trivial, trivial⟩
  · decide +kernel

end Cells

end SyntaxPack
