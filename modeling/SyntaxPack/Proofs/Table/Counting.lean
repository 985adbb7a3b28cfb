import SyntaxPack.Proofs.Firsts
import SyntaxPack.Proofs.Table.Finalized
/-!
# SyntaxPack.Proofs.Table.Counting

Tables as records of what was added to them.

As long as nothing is merged, a table is known from the list of all names that were added
to it: its entries are the first occurrences in that list, and each has as many hits as the
name has occurrences. Finalization selects from these and sorts them.
-/

namespace SyntaxPack

namespace Table

variable {κ ν : Type} {t : Table κ ν}

/-- Entries in the order in which finalization gives them their indices. -/
def inOrder (ordering : TableOrdering) (entries : List (Entry κ ν)) : List (Entry κ ν) :=
  match ordering with
  | .insertion => entries
  | .hitCountDescending => entries.mergeSort fun a b => b.hitCount ≤ a.hitCount

theorem map_snd_live (t : Table κ ν) : t.live.map (·.2) = t.entries.filter Entry.isLive := by
  have hfilter := @List.filter_map _ _ (·.1) Entry.isLive t.entries.zipIdx
  rw [List.zipIdx_map_fst] at hfilter
  rw [hfilter, live, List.map_map]
  rfl

/-- The keys of a table are the values of its live entries that are kept, in order. -/
theorem keys_finalize (horder : t.order = none) (ordering : TableOrdering) (keep : Entry κ ν → Bool) :
    (t.finalize ordering keep).keys =
      (inOrder ordering ((t.entries.filter Entry.isLive).filter keep)).map (·.value) := by
  have hsame := t.sameEntries_finalize ordering keep
  have hvalue : ∀ p ∈ t.live, (t.finalize ordering keep).value? p.1 = some p.2.value := by
    intro p hp
    obtain ⟨hentry, hlive⟩ := mem_live.mp hp
    have hat : t.IsLive p.1 := ⟨p.2, hentry, by simpa [Entry.isLive] using hlive⟩
    rw [hsame.value?_eq, value?, entry?, hat.resolve_eq, hentry, Option.map_some]
  -- the kept pairs of handles and entries, sorted
  obtain ⟨sorted, hsorted, hsubset, hentries⟩ : ∃ sorted : List (Handle × Entry κ ν),
      t.orderOf ordering keep = sorted.map (·.1) ∧ sorted ⊆ t.live ∧
        sorted.map (·.2) = inOrder ordering ((t.entries.filter Entry.isLive).filter keep) := by
    have hkept : (t.live.filter fun p => keep p.2).map (·.2) =
        (t.entries.filter Entry.isLive).filter keep := by
      rw [← map_snd_live, List.filter_map]
      rfl
    cases ordering with
    | insertion => exact ⟨_, rfl, fun p hp => List.mem_of_mem_filter hp, hkept⟩
    | hitCountDescending =>
        refine ⟨_, rfl, fun p hp => List.mem_of_mem_filter (List.mem_mergeSort.mp hp), ?_⟩
        unfold inOrder
        simp only
        rw [← hkept]
        exact List.map_mergeSort fun _ _ _ _ => rfl
  rw [keys, order_finalize horder, Option.getD_some, hsorted, List.filterMap_map, ← hentries,
    List.map_map, ← List.filterMap_eq_map]
  exact List.filterMap_congr fun p hp => hvalue p (hsubset hp)

theorem inOrder_perm (ordering : TableOrdering) (entries : List (Entry κ ν)) :
    (inOrder ordering entries).Perm entries := by
  cases ordering with
  | insertion => exact .refl _
  | hitCountDescending => exact List.mergeSort_perm _ _

/-- Whatever the order, the keys are the same. -/
theorem keys_finalize_perm (horder : t.order = none) (ordering ordering' : TableOrdering)
    (keep : Entry κ ν → Bool) :
    (t.finalize ordering keep).keys.Perm (t.finalize ordering' keep).keys := by
  rw [keys_finalize horder, keys_finalize horder]
  exact ((inOrder_perm ordering _).trans (inOrder_perm ordering' _).symm).map _

end Table

namespace UniqueTable

variable {κ : Type} [DecidableEq κ] {label : String} {check : Bool} {log : List κ} {x : κ}

/-- The entry of a name that occurs in a list. -/
def countedEntry (log : List κ) (x : κ) : Entry κ κ :=
  { name := x, value := x, hitCount := log.count x }

/-- A table to which names were added one after another. -/
def counting (label : String) (checkDivergence : Bool) (log : List κ) : UniqueTable κ where
  label := label
  checkDivergence := checkDivergence
  entries := log.eraseDups.map (countedEntry log)

theorem names_counting : (counting label check log).names = log.eraseDups := by
  rw [Table.names, counting, List.map_map]
  exact List.map_id'' (fun _ => rfl) _

theorem wellFormed_counting : (counting label check log).WellFormed := by
  refine ⟨?_, fun a ha => ?_⟩
  · have hnames : (counting label check log).entries.map (·.name) = log.eraseDups := names_counting
    rw [hnames]
    exact Firsts.nodup_eraseDups log
  · have hlive : (counting label check log).IsLive a := by
      refine ⟨_, List.getElem?_eq_getElem ha, ?_⟩
      simp [counting, countedEntry]
    exact ⟨0, a, .here hlive.link?_eq, Nat.zero_le _, hlive⟩

theorem mem_of_get?_counting {a : Handle} (h : (counting label check log).get? x = some a) :
    log.eraseDups[a.slot]? = some x := by
  obtain ⟨b, entry, hentry, hname, rfl⟩ := wellFormed_counting.get?_eq_some_iff.mp h
  simp only [counting, List.getElem?_map, Option.map_eq_some_iff] at hentry
  obtain ⟨y, hy, rfl⟩ := hentry
  obtain rfl : y = x := hname
  have hlive : (counting label check log).IsLive b :=
    ⟨countedEntry log y, by simp [counting, hy], rfl⟩
  rwa [hlive.resolve_eq]

/-- Interning a name adds one occurrence of it. -/
theorem intern_counting [EntryName κ] {a : Handle} {t : UniqueTable κ}
    (h : (counting label check log).intern x = .ok (a, t)) :
    t = counting label check (log ++ [x]) := by
  have hentries : ∀ entries, entries = (log ++ [x]).eraseDups.map (countedEntry (log ++ [x])) →
      ({ counting label check log with entries := entries } : UniqueTable κ) =
        counting label check (log ++ [x]) := by
    rintro _ rfl
    rfl
  have hother : ∀ y, y ≠ x → countedEntry (log ++ [x]) y = countedEntry log y := by
    intro y hy
    simp [countedEntry, List.count_append, Ne.symm hy]
  obtain ⟨-, ⟨hget, rfl⟩ | ⟨hget, -, rfl⟩⟩ := Table.add_eq_ok h
  · have hx := mem_of_get?_counting hget
    have hmem : x ∈ log := List.mem_eraseDups.mp (List.mem_of_getElem? hx)
    refine hentries _ (List.ext_getElem? fun i => (Table.getElem?_modify _ a _ i).trans ?_)
    rw [Firsts.eraseDups_snoc, if_pos hmem]
    simp only [counting, List.getElem?_map]
    by_cases hi : a.slot = i
    · subst hi
      rw [if_pos rfl, hx]
      simp [countedEntry, List.count_append]
    · rw [if_neg hi]
      cases hy : log.eraseDups[i]? with
      | none => rfl
      | some y =>
          have hne : y ≠ x := by
            rintro rfl
            obtain ⟨hlt, hyi⟩ := List.getElem?_eq_some_iff.mp hy
            obtain ⟨hlt', hxa⟩ := List.getElem?_eq_some_iff.mp hx
            exact hi (((Firsts.nodup_eraseDups log).getElem_inj_iff).mp (hxa.trans hyi.symm))
          rw [Option.map_some, Option.map_some, hother y hne]
  · have hmem : x ∉ log := by
      have hnot := Table.get?_eq_none_iff.mp hget
      rwa [names_counting, List.mem_eraseDups] at hnot
    refine hentries _ ?_
    rw [Firsts.eraseDups_snoc, if_neg hmem, List.map_append, List.map_singleton]
    refine congrArg₂ (· ++ ·) (List.map_congr_left fun y hy => (hother y ?_).symm) ?_
    · rintro rfl
      exact hmem (List.mem_eraseDups.mp hy)
    · simp [countedEntry, List.count_append, List.count_eq_zero_of_not_mem hmem]

theorem get?_counting_isNone : ((counting label check log).get? x).isNone = true ↔ x ∉ log := by
  rw [Option.isNone_iff_eq_none, Table.get?_eq_none_iff, names_counting, List.mem_eraseDups]

/-- Names in the order in which finalization gives them their indices. -/
def inOrder (ordering : TableOrdering) (log names : List κ) : List κ :=
  match ordering with
  | .insertion => names
  | .hitCountDescending => names.mergeSort fun a b => log.count b ≤ log.count a

theorem mem_inOrder {ordering : TableOrdering} {names : List κ} :
    x ∈ inOrder ordering log names ↔ x ∈ names := by
  cases ordering with
  | insertion => exact Iff.rfl
  | hitCountDescending => exact List.mem_mergeSort

/-- The keys of a table are the first occurrences that are kept, in order. -/
theorem keys_counting (ordering : TableOrdering) (keep : Entry κ κ → Bool) :
    ((counting label check log).finalize ordering keep).keys =
      inOrder ordering log (log.eraseDups.filter fun x => keep (countedEntry log x)) := by
  have hlive : (counting label check log).entries.filter Entry.isLive =
      log.eraseDups.map (countedEntry log) := by
    refine List.filter_eq_self.mpr fun entry hentry => ?_
    obtain ⟨x, -, rfl⟩ := List.mem_map.mp hentry
    rfl
  have hkept : (log.eraseDups.map (countedEntry log)).filter keep =
      (log.eraseDups.filter fun x => keep (countedEntry log x)).map (countedEntry log) :=
    List.filter_map
  have hvalues : ∀ names : List κ, (names.map (countedEntry log)).map (·.value) = names :=
    fun names => by
      rw [List.map_map]
      exact List.map_id'' (fun _ => rfl) names
  rw [Table.keys_finalize rfl, hlive, hkept]
  cases ordering with
  | insertion => exact hvalues _
  | hitCountDescending =>
      simp only [Table.inOrder, inOrder]
      rw [List.map_mergeSort (s := fun a b => log.count b ≤ log.count a) fun a ha b hb => ?_, hvalues]
      obtain ⟨x, -, rfl⟩ := List.mem_map.mp ha
      obtain ⟨y, -, rfl⟩ := List.mem_map.mp hb
      rfl

/-- The keys of two tables correspond if their names were first added in corresponding orders,
and corresponding names are kept alike and, where that matters, added equally often. -/
theorem forall₂_inOrder {κ' : Type} [DecidableEq κ'] {rel : κ → κ' → Prop} {log' : List κ'}
    {xs : List κ} {ys : List κ'} {ordering : TableOrdering} {keep : κ → Bool} {keep' : κ' → Bool}
    (h : List.Forall₂ rel xs ys) (hlog : log.eraseDups = xs.eraseDups)
    (hlog' : log'.eraseDups = ys.eraseDups)
    (hkeep : ∀ x y, x ∈ log → rel x y → keep x = keep' y)
    (hunique : ∀ x y x' y', x ∈ log → x' ∈ log → keep x = true → keep x' = true → rel x y →
      rel x' y' → (x = x' ↔ y = y'))
    (hcount : ordering = .hitCountDescending → ∀ x y, x ∈ log → rel x y → log.count x = log'.count y) :
    List.Forall₂ rel (inOrder ordering log (log.eraseDups.filter keep))
      (inOrder ordering log' (log'.eraseDups.filter keep')) := by
  have hmem : ∀ x, x ∈ xs → x ∈ log := fun x hx => by
    rwa [← List.mem_eraseDups, hlog, List.mem_eraseDups]
  have hkept := Firsts.forall₂_filter h fun x y hx hxy => hkeep x y (hmem x hx) hxy
  have hfirsts : List.Forall₂ rel (log.eraseDups.filter keep) (log'.eraseDups.filter keep') := by
    rw [hlog, hlog', ← Firsts.eraseDups_filter, ← Firsts.eraseDups_filter]
    refine Firsts.forall₂_eraseDups hkept fun x y x' y' hx hx' => ?_
    obtain ⟨hx, hkeepx⟩ := List.mem_filter.mp hx
    obtain ⟨hx', hkeepx'⟩ := List.mem_filter.mp hx'
    exact hunique x y x' y' (hmem x hx) (hmem x' hx') hkeepx hkeepx'
  cases ordering with
  | insertion => exact hfirsts
  | hitCountDescending =>
      refine Firsts.forall₂_mergeSort hfirsts fun x y x' y' hx hx' hxy hxy' => ?_
      have hx := List.mem_eraseDups.mp (List.mem_of_mem_filter hx)
      have hx' := List.mem_eraseDups.mp (List.mem_of_mem_filter hx')
      rw [hcount rfl x y hx hxy, hcount rfl x' y' hx' hxy']

end UniqueTable

/-! ### Merged tables -/

namespace UniqueTable

variable {κ : Type} [DecidableEq κ] {t : UniqueTable κ}

/-- An entry is live if and only if its name survives as itself. -/
theorem Valid.isLive_iff (hv : t.Valid) {entry : Entry κ κ} (hentry : entry ∈ t.entries) :
    entry.isLive = true ↔ t.rep entry.name = some entry.name := by
  obtain ⟨i, hi⟩ := List.getElem?_of_mem hentry
  have hname : t.names[i]? = some entry.name := by
    rw [Table.names, List.getElem?_map, hi, Option.map_some]
  constructor
  · intro hlive
    have hat : t.LiveAt ⟨i⟩ entry.name := ⟨⟨entry, hi, by simpa [Entry.isLive] using hlive⟩, hname⟩
    exact hv.rep_eq hat
  · intro hrep
    obtain ⟨⟨slot⟩, -, hat⟩ := hv.liveAt_of_rep hrep
    obtain ⟨found, hfound, hredirect⟩ := hat.live
    obtain ⟨hlt, hget⟩ := List.getElem?_eq_some_iff.mp hname
    obtain ⟨hlt', hget'⟩ := List.getElem?_eq_some_iff.mp hat.name
    obtain rfl : i = slot := hv.names_nodup.getElem_inj_iff.mp (hget.trans hget'.symm)
    obtain rfl := Option.some.inj (hi.symm.trans hfound)
    simpa [Entry.isLive] using hredirect

/-- If all live entries get an index in the order of insertion, the keys of a table are the names
that survive as themselves. -/
theorem Valid.keys_insertion (hv : t.Valid) (horder : t.order = none) :
    (t.finalize .insertion fun _ => true).keys = t.names.filter fun x => t.rep x = some x := by
  have hlive : t.entries.filter Entry.isLive =
      t.entries.filter fun entry => t.rep entry.name = some entry.name :=
    List.filter_congr fun entry hentry => by
      rw [Bool.eq_iff_iff, hv.isLive_iff hentry, decide_eq_true_eq]
  have hvalues : ∀ entry ∈ t.entries, entry.value = entry.name :=
    List.map_inj_left.mp hv.values
  have hfilter := @List.filter_map _ _ (·.name) (fun x => decide (t.rep x = some x)) t.entries
  rw [Table.keys_finalize horder, Table.inOrder, List.filter_true, hlive, Table.names, hfilter]
  exact List.map_congr_left fun entry hentry => hvalues entry (List.mem_of_mem_filter hentry)

end UniqueTable

end SyntaxPack
