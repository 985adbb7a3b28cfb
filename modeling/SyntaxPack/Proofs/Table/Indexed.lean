import SyntaxPack.Proofs.Table.History
/-!
# SyntaxPack.Proofs.Table.Indexed

The order that finalization freezes.

Finalization filters the live entries and sorts what it keeps. The filter keeps the order of
the slots, and the sort is stable: among entries with equally many hits it changes nothing
(`pairwise_mergeSort_stable`). So both orderings are described by which of two entries comes first
(`Precedes`). The index of an entry is its position in that order, and no later call changes
the table again.
-/

namespace SyntaxPack

/-- A stable sort leaves entries that may stand in either order as they stood. -/
theorem filter_mergeSort {α : Type} {le : α → α → Bool} {p : α → Bool} (l : List α)
    (htrans : ∀ a b c, le a b = true → le b c = true → le a c = true)
    (htotal : ∀ a b, (le a b || le b a) = true)
    (hp : ∀ a b, p a = true → p b = true → le a b = true) :
    (l.mergeSort le).filter p = l.filter p := by
  have hpairwise : (l.filter p).Pairwise fun a b => le a b = true :=
    List.pairwise_of_forall_mem_list fun a ha b hb =>
      hp a b (List.mem_filter.mp ha).2 (List.mem_filter.mp hb).2
  have hsub := (List.sublist_mergeSort htrans htotal hpairwise List.filter_sublist).filter p
  rw [List.filter_filter] at hsub
  simp only [Bool.and_self] at hsub
  exact (hsub.eq_of_length ((List.mergeSort_perm l le).filter p).length_eq.symm).symm

/-- A stable sort puts a list in order, and what may stand in either order as it stood. -/
theorem pairwise_mergeSort_stable {α : Type} {le : α → α → Bool} {rel : α → α → Prop} {l : List α}
    (htrans : ∀ a b c, le a b = true → le b c = true → le a c = true)
    (htotal : ∀ a b, (le a b || le b a) = true) (h : l.Pairwise rel) :
    (l.mergeSort le).Pairwise fun a b => le a b = true ∧ (le b a = true → rel a b) := by
  refine List.pairwise_iff_forall_sublist.mpr fun {a b} hsub => ?_
  have hle : le a b = true :=
    List.pairwise_iff_forall_sublist.mp (List.pairwise_mergeSort htrans htotal l) hsub
  refine ⟨hle, fun hge => ?_⟩
  -- the sort keeps the order of all that may stand on either side of `a`
  have hstable : (l.mergeSort le).filter (fun c => le a c && le c a) =
      l.filter fun c => le a c && le c a := by
    refine filter_mergeSort l htrans htotal fun c d hc hd => ?_
    rw [Bool.and_eq_true] at hc hd
    exact htrans c a d hc.2 hd.1
  have hrefl : le a a = true := by simpa using htotal a a
  have hpair : [a, b].Sublist (l.filter fun c => le a c && le c a) := by
    have hfiltered := hsub.filter fun c => le a c && le c a
    rwa [hstable, List.filter_cons_of_pos (by rw [hrefl, Bool.and_self]),
      List.filter_cons_of_pos (by rw [hle, hge, Bool.and_self]), List.filter_nil] at hfiltered
  exact List.pairwise_iff_forall_sublist.mp (h.filter _) hpair

namespace Table

variable {κ ν : Type} {t : Table κ ν} {a b : Handle}

/-- Which of two live entries comes first. -/
def Precedes (t : Table κ ν) : TableOrdering → Handle → Handle → Prop
  | .insertion, a, b => a.slot < b.slot
  | .hitCountDescending, a, b =>
    t.hitCount b < t.hitCount a ∨ t.hitCount a = t.hitCount b ∧ a.slot < b.slot

theorem pairwise_live (t : Table κ ν) : t.live.Pairwise fun p q => p.1.slot < q.1.slot := by
  have hslots : t.entries.zipIdx.Pairwise fun p q => p.2 < q.2 := by
    refine List.pairwise_map.mp ?_
    rw [List.zipIdx_map_snd]
    exact List.pairwise_lt_range'
  exact List.pairwise_map.mpr (hslots.filter _)

theorem pairwise_orderOf (t : Table κ ν) (ordering : TableOrdering) (keep : Entry κ ν → Bool) :
    (t.orderOf ordering keep).Pairwise (t.Precedes ordering) := by
  have hslots : (t.live.filter fun p => keep p.2).Pairwise fun p q => p.1.slot < q.1.slot :=
    t.pairwise_live.filter _
  cases ordering with
  | insertion => exact List.pairwise_map.mpr hslots
  | hitCountDescending =>
      have hhits : ∀ p ∈ t.live.filter fun p => keep p.2, t.hitCount p.1 = p.2.hitCount :=
        fun p hp => hitCount_of_mem_live (List.mem_of_mem_filter hp)
      refine List.pairwise_map.mpr ((pairwise_mergeSort_stable (fun p q r hpq hqr => ?_)
        (fun p q => ?_) hslots).imp_of_mem fun {p q} hp hq hpq => ?_)
      · simp only [decide_eq_true_eq] at hpq hqr ⊢
        omega
      · simp only [Bool.or_eq_true, decide_eq_true_eq]
        omega
      · obtain ⟨hle, hties⟩ := hpq
        rw [Precedes, hhits p (List.mem_mergeSort.mp hp), hhits q (List.mem_mergeSort.mp hq)]
        rcases Nat.lt_or_eq_of_le (of_decide_eq_true hle) with hlt | heq
        · exact .inl hlt
        · exact .inr ⟨heq.symm, hties (decide_eq_true (Nat.le_of_eq heq.symm))⟩

/-- Finalization changes nothing about an entry but its index. -/
theorem entry?_finalize_eq (horder : t.order = none) (ordering : TableOrdering)
    (keep : Entry κ ν → Bool) (a : Handle) :
    Table.entry? (t.finalize ordering keep) a = (t.entry? a).map fun entry =>
      { entry with index := (t.orderOf ordering keep).idxOf? (t.resolve a) } := by
  rw [Table.entry?, resolve_congr (t.sameEntries_finalize ordering keep).redirects, entry?]
  simp only [finalize, horder, List.getElem?_mapIdx]

/-- The index of a handle whose entry is kept is the position of that entry. -/
theorem indexAt_finalize [EntryName κ] (hw : t.WellFormed) (horder : t.order = none)
    (ordering : TableOrdering) (keep : Entry κ ν → Bool) (ha : a.slot < t.entries.length) :
    ∃ entry, t.entry? a = some entry ∧ (t.finalize ordering keep).indexAt a =
      if keep entry then .ok ((t.orderOf ordering keep).idxOf (t.resolve a))
      else .error (.unindexed t.label (EntryName.shown entry.name)) := by
  obtain ⟨entry, hentry, hlive⟩ := hw.resolve_live ha
  have hfinal : (t.finalize ordering keep).isFinalized = true := by
    rw [isFinalized, order_finalize horder, Option.isSome_some]
  have hmem : t.resolve a ∈ t.orderOf ordering keep ↔ keep entry = true := by
    rw [mem_orderOf]
    simp [hentry, Entry.isLive, hlive]
  refine ⟨entry, hentry, ?_⟩
  rw [indexAt, if_pos hfinal, entry?_finalize_eq horder, entry?, hentry, Option.map_some]
  cases hkeep : keep entry with
  | true =>
      cases hindex : (t.orderOf ordering keep).idxOf? (t.resolve a) with
      | some index =>
          obtain ⟨hlt, hat, -⟩ := List.idxOf?_eq_some_iff.mp hindex
          rw [if_pos rfl, ← hat, (t.nodup_orderOf ordering keep).idxOf_getElem index hlt]
      | none => exact absurd (hmem.mpr hkeep) (List.idxOf?_eq_none_iff.mp hindex)
  | false =>
      have hindex : (t.orderOf ordering keep).idxOf? (t.resolve a) = none :=
        List.idxOf?_eq_none_iff.mpr fun hin => by simp [hmem.mp hin] at hkeep
      rw [hindex, (t.sameEntries_finalize ordering keep).label]
      rfl

/-- The handle at a position has that position as its index. -/
theorem indexAt_getElem [EntryName κ] (horder : t.order = none) (ordering : TableOrdering)
    (keep : Entry κ ν → Bool) {i : Nat} (hi : i < (t.orderOf ordering keep).length) :
    (t.finalize ordering keep).indexAt (t.orderOf ordering keep)[i] = .ok i := by
  obtain ⟨entry, hentry, hlive, -⟩ := mem_orderOf.mp (List.getElem_mem hi)
  have halive : t.IsLive (t.orderOf ordering keep)[i] :=
    ⟨entry, hentry, by simpa [Entry.isLive] using hlive⟩
  have hindex : (t.orderOf ordering keep).idxOf? (t.orderOf ordering keep)[i] = some i := by
    refine List.idxOf?_eq_some_iff.mpr ⟨hi, rfl, fun j hj heq => ?_⟩
    have := (t.nodup_orderOf ordering keep).getElem_inj_iff.mp heq
    omega
  rw [indexAt, isFinalized, order_finalize horder, Option.isSome_some, if_pos rfl,
    entry?_finalize_eq horder, entry?, halive.resolve_eq, hentry, Option.map_some, hindex]

namespace History

variable {past : History κ ν}

section Frozen

variable [DecidableEq κ] [DecidableEq ν] [EntryName κ]

/-- Once a table is finalized, a call fails or leaves it as it is. -/
theorem perform_of_finalized (h : past.table.isFinalized = true) (call : Call κ ν) :
    past.perform call = past := by
  obtain ⟨order, horder⟩ := Option.isSome_iff_exists.mp h
  have hnot : past.table.order ≠ none := by simp [horder]
  rw [perform]
  cases hrun : past.apply call with
  | error e => rfl
  | ok next =>
      cases applied_of_apply hrun with
      | add hadd => exact absurd (add_eq_ok hadd).1 hnot
      | dedupe hsource htarget hmerge => exact absurd (dedupeHandles_eq_ok hmerge).1 hnot
      | dedupeHandles hmerge => exact absurd (dedupeHandles_eq_ok hmerge).1 hnot
      | @finalize ordering keep =>
          have hsame : past.table.finalize ordering keep = past.table := by
            simp only [Table.finalize, horder]
          rw [hsame]
          rfl

theorem run_of_finalized (h : past.table.isFinalized = true) (calls : List (Call κ ν)) :
    past.run calls = past := by
  induction calls with
  | nil => rfl
  | cons call calls ih =>
      rw [run, List.foldl_cons, past.perform_of_finalized h]
      exact ih

end Frozen

/-- The indices of a finalized table are the positions in a list of what was kept. -/
structure DenselyIndexed [EntryName κ] (past : History κ ν) (ordering : TableOrdering)
    (keep : Entry κ ν → Bool) (order : List Handle) (final : Table κ ν) : Prop where
  /-- Finalization returns the list. -/
  indexed : final.indexed = .ok order
  /-- The list has the live entries that are kept, and no others. -/
  mem_iff : ∀ a, a ∈ order ↔ ∃ entry, (a, entry) ∈ past.table.live ∧ keep entry = true
  /-- No entry is listed twice. -/
  nodup : order.Nodup
  /-- The entries stand in the order that was asked for. -/
  sorted : order.Pairwise (past.table.Precedes ordering)
  /-- Handles reach what they reached before. -/
  resolve_eq : ∀ a, final.resolve a = past.table.resolve a
  /-- The index of a listed handle is its position. -/
  indexAt_getElem : ∀ i (hi : i < order.length), final.indexAt order[i] = .ok i
  /-- The index of a handle is the position of what it reaches, unless that was rejected. -/
  indexAt_eq : ∀ a, past.Issued a → ∃ entry, past.table.entry? a = some entry ∧
    final.indexAt a = if keep entry then .ok (order.idxOf (past.table.resolve a))
      else .error (.unindexed past.table.label (EntryName.shown entry.name))

theorem Agrees.denselyIndexed [DecidableEq κ] [EntryName κ] (h : past.Agrees)
    (hbuilding : past.table.order = none) (ordering : TableOrdering) (keep : Entry κ ν → Bool) :
    past.DenselyIndexed ordering keep (past.table.orderOf ordering keep)
      (past.table.finalize ordering keep) := by
  have hsame := past.table.sameEntries_finalize ordering keep
  refine ⟨?_, fun a => ?_, past.table.nodup_orderOf ordering keep,
    past.table.pairwise_orderOf ordering keep, resolve_congr hsame.redirects,
    fun i => Table.indexAt_getElem hbuilding ordering keep, fun a ha => ?_⟩
  · rw [Table.indexed, order_finalize hbuilding]
  · rw [mem_orderOf]
    simp only [mem_live, and_assoc]
  · exact indexAt_finalize h.linked.wellFormed hbuilding ordering keep ((h.issued_iff a).mp ha)

/-- Four names of which the first is merged into the second. -/
def fourNames : List (Call String Nat) :=
  [.add "a" 1, .add "b" 2, .add "c" 3, .add "d" 4, .add "d" 4, .dedupeHandles ⟨0⟩ ⟨1⟩]

end History

end Table

end SyntaxPack
