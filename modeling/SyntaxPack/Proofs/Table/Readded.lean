import SyntaxPack.Proofs.Table.History
/-!
# SyntaxPack.Proofs.Table.Readded

Interning a value again.

A table that checks for divergence compares an added value with the one that the name reaches.
In a unique table the two are the same as long as the entry of the name is live. Once it was
merged away the name reaches an entry of another name, and therefore of another value: from then
on interning the very value that was interned before is reported as divergent.
-/

namespace SyntaxPack

namespace Table

variable {κ : Type} {a : Handle}

/-- A call that keeps values their own names. -/
def Call.Interns : Call κ κ → Prop
  | .add name value => name = value
  | _ => True

/-- A table that checks for divergence and in which values are their own names. -/
structure Interning (t : UniqueTable κ) : Prop where
  checked : t.checkDivergence = true
  values : t.entries.map (·.value) = t.names

namespace Interning

variable {t t' : UniqueTable κ}

theorem empty (label : String) : Interning (Table.empty label true : UniqueTable κ) :=
  ⟨rfl, rfl⟩

theorem add [DecidableEq κ] [EntryName κ] {value : κ} (h : t.Interning)
    (hrun : t.add value value = .ok (a, t')) : t'.Interning := by
  obtain ⟨-, ⟨-, rfl⟩ | ⟨-, -, rfl⟩⟩ := add_eq_ok hrun
  · have hsame := t.sameEntries_addHits a 1
    exact ⟨h.checked, by rw [hsame.values, hsame.names, h.values]⟩
  · refine ⟨h.checked, ?_⟩
    have hvalues := h.values
    rw [names] at hvalues ⊢
    rw [List.map_append, List.map_append, hvalues]
    rfl

theorem dedupeHandles [EntryName κ] {source target : Handle} (h : t.Interning)
    (hrun : t.dedupeHandles source target = .ok t') : t'.Interning := by
  obtain ⟨-, -, rfl⟩ := dedupeHandles_eq_ok hrun
  exact ⟨h.checked, by rw [values_mergeInto, names_mergeInto, h.values]⟩

theorem finalize (h : t.Interning) (ordering : TableOrdering) (keep : Entry κ κ → Bool) :
    Interning (t.finalize ordering keep) := by
  have hsame := t.sameEntries_finalize ordering keep
  refine ⟨?_, by rw [hsame.values, hsame.names, h.values]⟩
  simp only [Table.finalize]
  split
  · exact h.checked
  · exact h.checked

end Interning

namespace History

variable {past next : History κ κ} {x : κ} {first : Handle}

section Runs

variable [DecidableEq κ] [EntryName κ]

theorem interning_apply (h : past.table.Interning) {call : Call κ κ}
    (hinterns : call.Interns) (hrun : past.apply call = .ok next) :
    next.table.Interning := by
  cases applied_of_apply hrun with
  | @add name value _ _ hadd =>
      obtain rfl : name = value := hinterns
      exact h.add hadd
  | dedupe hsource htarget hmerge => exact h.dedupeHandles hmerge
  | dedupeHandles hmerge => exact h.dedupeHandles hmerge
  | finalize => exact h.finalize _ _

theorem interning_perform (h : past.table.Interning) {call : Call κ κ}
    (hinterns : call.Interns) : (past.perform call).table.Interning := by
  rw [perform]
  cases hrun : past.apply call with
  | ok next => exact interning_apply h hinterns hrun
  | error e => exact h

theorem interning_run (h : past.table.Interning) {calls : List (Call κ κ)}
    (hinterns : ∀ call ∈ calls, call.Interns) : (past.run calls).table.Interning := by
  induction calls generalizing past with
  | nil => exact h
  | cons call calls ih =>
      exact ih (interning_perform h (hinterns call List.mem_cons_self)) fun other hother =>
        hinterns other (List.mem_cons_of_mem call hother)

end Runs

/-- What interning a value again comes to, if `first` is the handle that was returned for it the
first time. -/
structure Readded [DecidableEq κ] [EntryName κ] (past : History κ κ) (x : κ) (first : Handle) :
    Prop where
  /-- The value is found where the handle leads to. -/
  get?_eq : past.table.get? x = some (past.table.resolve first)
  /-- If its entry is live, that is where it is found, and one more hit is all that changes. -/
  counted : past.table.IsLive first → past.table.resolve first = first ∧
    UniqueTable.intern past.table x =
      .ok (first, past.table.modify first fun e => { e with hitCount := e.hitCount + 1 })
  /-- If its entry was merged away, the value that it reaches is another one. -/
  divergent : ¬past.table.IsLive first →
    (∃ y, past.table.value? first = some y ∧ y ≠ x) ∧
    UniqueTable.intern past.table x = .error (.divergent past.table.label (EntryName.shown x))
  /-- Where nothing was merged, every entry is live. -/
  unmerged : past.merges = [] → past.table.IsLive first

/-- Merges take entries away one by one. -/
theorem Agrees.isLive_of_unmerged [DecidableEq κ] (h : past.Agrees) (hmerges : past.merges = [])
    (ha : a.slot < past.table.entries.length) : past.table.IsLive a := by
  have hcount : mergedCount past.table.entries = 0 := by
    rw [h.linked.mergedCount_eq, hmerges, List.length_nil]
  have hlive := List.countP_eq_zero.mp hcount _ (List.getElem_mem ha)
  exact ⟨_, List.getElem?_eq_getElem ha, by simpa [Entry.isLive] using hlive⟩

theorem Agrees.readded [DecidableEq κ] [EntryName κ] (h : past.Agrees)
    (hinterning : past.table.Interning) (hbuilding : past.table.order = none)
    (hfirst : past.adds.lookup x = some first) : past.Readded x first := by
  have hvalid : UniqueTable.Valid past.table := ⟨h.linked.wellFormed, hinterning.values⟩
  have hslot : past.table.slotOf? x = some first := (h.slotOf?_eq x).trans hfirst
  have hget : past.table.get? x = some (past.table.resolve first) := by
    rw [get?, hslot, Option.map_some]
  obtain ⟨y, hat, -⟩ := hvalid.liveAt hget
  have hvalue : past.table.value? (past.table.resolve first) = some y := hvalid.value?_eq hat
  have hagain : UniqueTable.intern past.table x = _ := add_again hbuilding hget hvalue
  obtain ⟨entry, hentry, hname⟩ := hvalid.wellFormed.slotOf?_eq_some_iff.mp hslot
  refine ⟨hget, fun hlive => ?_, fun hmerged => ?_, fun hmerges => ?_⟩
  · have hx : UniqueTable.LiveAt past.table first x :=
      ⟨hlive, by rw [names, List.getElem?_map, hentry, Option.map_some, hname]⟩
    rw [hlive.resolve_eq] at hat hagain
    obtain rfl : x = y := hx.name_inj hat
    rw [if_neg fun hdiffer => hdiffer.2 rfl] at hagain
    exact ⟨hlive.resolve_eq, hagain⟩
  · -- An entry of the same name would be the one that was merged away.
    have hdiffer : y ≠ x := by
      intro heq
      subst heq
      have hname := hat.name
      rw [names, List.getElem?_map, Option.map_eq_some_iff] at hname
      have hself : past.table.slotOf? y = some (past.table.resolve first) :=
        hvalid.wellFormed.slotOf?_eq_some_iff.mpr hname
      rw [hslot] at hself
      exact hmerged (Option.some.inj hself ▸ hat.live)
    rw [if_pos ⟨hinterning.checked, hdiffer⟩] at hagain
    rw [value?, entry?, hat.live.resolve_eq] at hvalue
    exact ⟨⟨y, hvalue, hdiffer⟩, hagain⟩
  · exact h.isLive_of_unmerged hmerges (slotOf?_lt hslot)

/-- Whatever was called on a new table that checks for divergence and is still building, interning
a value again counts a hit if the entry of the value is live, and is refused if it was merged
away. -/
theorem readded_run [DecidableEq κ] [EntryName κ] (label : String) {calls : List (Call κ κ)}
    (h : (start label true).AdmitsAll calls) (hinterns : ∀ call ∈ calls, call.Interns)
    (hbuilding : ((start label true).run calls).table.order = none)
    (hmem : x ∈ ((start label true).run calls).table.names) :
    ∃ first, ((start label true).run calls).adds.lookup x = some first ∧
      ((start label true).run calls).Readded x first := by
  have hagrees := (agrees_start label true).run h
  have hinterning : ((start label true).run calls).table.Interning :=
    interning_run (.empty label) hinterns
  have hfound : ((start label true).run calls).table.slotOf? x ≠ none :=
    fun hnone => slotOf?_eq_none_iff.mp hnone hmem
  obtain ⟨first, hfirst⟩ := Option.ne_none_iff_exists'.mp hfound
  rw [hagrees.slotOf?_eq] at hfirst
  exact ⟨first, hfirst, hagrees.readded hinterning hbuilding hfirst⟩

/-- Two values of which the second is merged into the first. -/
def twoValues : List (Call String String) := [.add "a" "a", .add "b" "b", .dedupe "b" "a"]

/-- The entry of the first value is live, and that of the second is not. -/
theorem readded_twoValues :
    (∃ first, ((start "strings" true).run twoValues).adds.lookup "a" = some first ∧
      ((start "strings" true).run twoValues).Readded "a" first) ∧
    ∃ first, ((start "strings" true).run twoValues).adds.lookup "b" = some first ∧
      ((start "strings" true).run twoValues).Readded "b" first := by
  have hadmits : (start "strings" true).AdmitsAll twoValues := ⟨trivial, trivial, trivial, trivial⟩
  have hinterns : ∀ call ∈ twoValues, call.Interns := by
    simp [twoValues, Call.Interns]
  exact ⟨readded_run "strings" hadmits hinterns (by decide +kernel) (by decide +kernel),
    readded_run "strings" hadmits hinterns (by decide +kernel) (by decide +kernel)⟩

/-- The second value is in the table and found where the first one is, and yet interning it again
is refused. -/
theorem intern_twoValues_divergent :
    ((start "strings" true).run twoValues).table.order = none ∧
      ((start "strings" true).run twoValues).table.get? "b" = some ⟨0⟩ ∧
      UniqueTable.intern ((start "strings" true).run twoValues).table "b" =
        .error (.divergent "strings" (EntryName.shown "b")) := by
  refine ⟨by decide +kernel, by decide +kernel, ?_⟩
  rfl

end History

end Table

end SyntaxPack
