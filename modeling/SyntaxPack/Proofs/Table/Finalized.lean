import SyntaxPack.Proofs.Table.Unique
/-!
# SyntaxPack.Proofs.Table.Finalized

What finalization does.

The indexed entries of a table are listed once each, and the index of an entry is its
position in that list. For a unique table this is a list of names, `keys`: the names
that survive as themselves and are kept. What stands at the index of a name is the
name that survives for it.
-/

namespace SyntaxPack

/-! ### Positions in lists -/

section Lists

variable {α β : Type} {f : α → Option β} {l : List α}

theorem nodup_filterMap_of_inj (hl : l.Nodup)
    (hinj : ∀ a ∈ l, ∀ b ∈ l, ∀ y, f a = some y → f b = some y → a = b) :
    (l.filterMap f).Nodup := by
  induction l with
  | nil => simp
  | cons a l ih =>
      rw [List.nodup_cons] at hl
      have htail := ih hl.2 fun b hb c hc =>
        hinj b (List.mem_cons_of_mem a hb) c (List.mem_cons_of_mem a hc)
      cases ha : f a with
      | none => rwa [List.filterMap_cons_none ha]
      | some y =>
          rw [List.filterMap_cons_some ha, List.nodup_cons]
          refine ⟨fun hy => ?_, htail⟩
          obtain ⟨b, hb, hfb⟩ := List.mem_filterMap.mp hy
          obtain rfl := hinj a List.mem_cons_self b (List.mem_cons_of_mem a hb) y ha hfb
          exact hl.1 hb

/-- An item is at the position of the one item that leads to it. -/
theorem idxOf?_filterMap [DecidableEq α] [DecidableEq β] {a : α} {y : β}
    (hsome : ∀ b ∈ l, (f b).isSome) (ha : f a = some y)
    (hinj : ∀ b ∈ l, f b = some y → b = a) : (l.filterMap f).idxOf? y = l.idxOf? a := by
  induction l with
  | nil => simp
  | cons b l ih =>
      obtain ⟨z, hz⟩ := Option.isSome_iff_exists.mp (hsome b List.mem_cons_self)
      have htail := ih (fun c hc => hsome c (List.mem_cons_of_mem b hc)) fun c hc =>
        hinj c (List.mem_cons_of_mem b hc)
      rw [List.filterMap_cons_some hz, List.idxOf?_cons, List.idxOf?_cons, htail]
      have hiff : z = y ↔ b = a :=
        ⟨fun h => hinj b List.mem_cons_self (h ▸ hz), fun h => by
          rw [h, ha] at hz
          exact (Option.some.inj hz).symm⟩
      by_cases hb : b = a
      · simp [hb, hiff.mpr hb]
      · have hz : z ≠ y := fun h => hb (hiff.mp h)
        simp [hb, hz]

end Lists

namespace Table

variable {κ ν : Type} {t : Table κ ν} {a : Handle}

/-- The values of the indexed entries, in the order of their indices. -/
def keys (t : Table κ ν) : List ν := (t.order.getD []).filterMap t.value?

/-- The index of the surviving entry that a name reaches, if it has one. -/
def index? [DecidableEq κ] (t : Table κ ν) (name : κ) : Option Nat :=
  (t.get? name).bind fun a => (t.entry? a).bind (·.index)

theorem mem_live {entry : Entry κ ν} :
    (a, entry) ∈ t.live ↔ t.entries[a.slot]? = some entry ∧ entry.isLive = true := by
  simp only [live, List.mem_map, List.mem_filter, Prod.exists, Prod.mk.injEq,
    List.mem_zipIdx_iff_getElem?]
  constructor
  · rintro ⟨e, slot, ⟨hentry, hlive⟩, rfl, rfl⟩
    exact ⟨hentry, hlive⟩
  · rintro ⟨hentry, hlive⟩
    exact ⟨entry, a.slot, ⟨hentry, hlive⟩, rfl, rfl⟩

theorem nodup_live (t : Table κ ν) : (t.live.map (·.1)).Nodup := by
  have hslots : (t.entries.zipIdx.map (·.2)).Nodup := by
    rw [List.zipIdx_map_snd]
    exact List.nodup_range'
  have hfiltered := ((List.filter_sublist (p := fun e : Entry κ ν × Nat => e.1.isLive)
    (l := t.entries.zipIdx)).map (·.2)).nodup hslots
  rw [live, List.map_map]
  refine List.Nodup.of_map Handle.slot ?_
  rw [List.map_map]
  exact hfiltered

/-- The order of the indices, up to the ordering: a selection of the live entries. -/
theorem orderOf_perm (t : Table κ ν) (ordering : TableOrdering) (keep : Entry κ ν → Bool) :
    (t.orderOf ordering keep).Perm ((t.live.filter fun p => keep p.2).map (·.1)) := by
  cases ordering with
  | insertion => exact .refl _
  | hitCountDescending => exact (List.mergeSort_perm _ _).map _

theorem mem_orderOf {ordering : TableOrdering} {keep : Entry κ ν → Bool} :
    a ∈ t.orderOf ordering keep ↔
      ∃ entry, t.entries[a.slot]? = some entry ∧ entry.isLive = true ∧ keep entry = true := by
  rw [(t.orderOf_perm ordering keep).mem_iff]
  simp only [List.mem_map, List.mem_filter, Prod.exists, mem_live]
  constructor
  · rintro ⟨b, entry, ⟨⟨hentry, hlive⟩, hkeep⟩, rfl⟩
    exact ⟨entry, hentry, hlive, hkeep⟩
  · rintro ⟨entry, hentry, hlive, hkeep⟩
    exact ⟨a, entry, ⟨⟨hentry, hlive⟩, hkeep⟩, rfl⟩

theorem nodup_orderOf (t : Table κ ν) (ordering : TableOrdering) (keep : Entry κ ν → Bool) :
    (t.orderOf ordering keep).Nodup :=
  (t.orderOf_perm ordering keep).nodup_iff.mpr ((List.filter_sublist.map _).nodup t.nodup_live)

theorem length_live (t : Table κ ν) : t.live.length = t.size := by
  rw [live, List.length_map, ← List.countP_eq_length_filter, size]
  conv => rhs; rw [← List.zipIdx_map_fst 0 t.entries, List.countP_map]
  rfl

theorem length_orderOf_le (t : Table κ ν) (ordering : TableOrdering) (keep : Entry κ ν → Bool) :
    (t.orderOf ordering keep).length ≤ t.size := by
  rw [(t.orderOf_perm ordering keep).length_eq, List.length_map, ← t.length_live]
  exact List.length_filter_le _ _

theorem length_orderOf_all (t : Table κ ν) (ordering : TableOrdering) :
    (t.orderOf ordering fun _ => true).length = t.size := by
  rw [(t.orderOf_perm ordering _).length_eq, List.length_map, List.filter_eq_self.mpr fun _ _ => rfl,
    t.length_live]

/-- Finalization assigns indices and leaves everything else as it is. -/
theorem sameEntries_finalize (t : Table κ ν) (ordering : TableOrdering) (keep : Entry κ ν → Bool) :
    t.SameEntries (t.finalize ordering keep) := by
  have hmap : ∀ {α : Type} (g : Entry κ ν → α) (order : List Handle),
      (∀ e i, g { e with index := i } = g e) →
      (t.entries.mapIdx fun slot entry => { entry with index := order.idxOf? ⟨slot⟩ }).map g =
        t.entries.map g := by
    intro α g order hg
    refine List.ext_getElem? fun i => ?_
    simp only [List.getElem?_map, List.getElem?_mapIdx]
    cases t.entries[i]? with
    | none => rfl
    | some e => simp [hg]
  simp only [finalize]
  split
  · exact ⟨rfl, rfl, rfl, rfl⟩
  · exact ⟨rfl, hmap (·.name) _ fun _ _ => rfl, hmap (·.value) _ fun _ _ => rfl,
      hmap (·.redirect) _ fun _ _ => rfl⟩

theorem order_finalize (horder : t.order = none) (ordering : TableOrdering)
    (keep : Entry κ ν → Bool) :
    (t.finalize ordering keep).order = some (t.orderOf ordering keep) := by
  simp only [finalize, horder]

/-- A live entry has its position in the order as its index. -/
theorem entry?_finalize (horder : t.order = none) (hlive : t.IsLive a) (ordering : TableOrdering)
    (keep : Entry κ ν → Bool) :
    (Table.entry? (t.finalize ordering keep) a).bind (·.index) =
      (t.orderOf ordering keep).idxOf? a := by
  rw [Table.entry?, resolve_congr (t.sameEntries_finalize ordering keep).redirects, hlive.resolve_eq]
  obtain ⟨entry, hentry, -⟩ := hlive
  simp only [finalize, horder, List.getElem?_mapIdx, hentry, Option.map_some, Option.bind_some]

theorem size_finalize (t : Table κ ν) (ordering : TableOrdering) (keep : Entry κ ν → Bool) :
    (t.finalize ordering keep).size = t.size :=
  size_congr (t.sameEntries_finalize ordering keep).redirects

/-- A name with an index has it looked up without an error. -/
theorem indexOf_eq_ok [DecidableEq κ] [EntryName κ] {name : κ} {index : Nat} {order : List Handle}
    (horder : t.order = some order) (h : t.index? name = some index) :
    t.indexOf name = .ok index := by
  obtain ⟨a, hget, hindex⟩ := Option.bind_eq_some_iff.mp h
  obtain ⟨entry, hentry, hindex⟩ := Option.bind_eq_some_iff.mp hindex
  simp only [indexOf, require, hget, ok_bind, indexAt, isFinalized, horder, Option.isSome_some,
    if_true, hentry, hindex]

end Table

namespace UniqueTable

variable {κ : Type} [DecidableEq κ] {t : UniqueTable κ} {x y : κ}

/-- A finalized table: the index of a name is the position of what survives for it. -/
structure Finalized (t : UniqueTable κ) : Prop where
  valid : t.Valid
  order : ∃ order, t.order = some order ∧ order.length = t.keys.length
  keys_nodup : t.keys.Nodup
  keys_live : ∀ y ∈ t.keys, t.rep y = some y
  index?_eq : ∀ x, t.index? x = (t.rep x).bind (t.keys.idxOf? ·)
  length_keys_le : t.keys.length ≤ t.size

theorem Valid.finalized (hv : t.Valid) (horder : t.order = none) (ordering : TableOrdering)
    (keep : Entry κ κ → Bool) : Finalized (t.finalize ordering keep) := by
  have hsame := t.sameEntries_finalize ordering keep
  have hfinal := Table.order_finalize horder ordering keep
  have hvalid := valid_of_sameEntries hsame hv
  -- Every handle in the order is that of a live entry, so it has a name of its own.
  have hat : ∀ a ∈ t.orderOf ordering keep, ∃ y, t.LiveAt a y ∧ t.value? a = some y := by
    intro a ha
    obtain ⟨entry, hentry, hlive, -⟩ := Table.mem_orderOf.mp ha
    have hliveAt : t.LiveAt a entry.name :=
      ⟨⟨entry, hentry, by simpa [Entry.isLive] using hlive⟩, by simp [Table.names, hentry]⟩
    exact ⟨_, hliveAt, hv.value?_eq hliveAt⟩
  have hinj : ∀ a ∈ t.orderOf ordering keep, ∀ b y, t.LiveAt b y → t.value? a = some y → a = b := by
    intro a ha b y hb hvalue
    obtain ⟨z, hz, hvalue'⟩ := hat a ha
    obtain rfl : z = y := Option.some.inj (hvalue'.symm.trans hvalue)
    exact hv.liveAt_inj hz hb
  have hkeys : (t.finalize ordering keep).keys = (t.orderOf ordering keep).filterMap t.value? := by
    rw [Table.keys, hfinal, Option.getD_some]
    exact congrArg (fun f => (t.orderOf ordering keep).filterMap f) (funext hsame.value?_eq)
  have hlength : (t.orderOf ordering keep).length = (t.finalize ordering keep).keys.length := by
    rw [hkeys, List.length_filterMap_eq_countP, eq_comm, List.countP_eq_length]
    intro a ha
    obtain ⟨y, -, hy⟩ := hat a ha
    simp [hy]
  refine ⟨hvalid, ⟨_, hfinal, hlength⟩, ?_, fun y hy => ?_, fun x => ?_, ?_⟩
  · rw [hkeys]
    refine nodup_filterMap_of_inj (t.nodup_orderOf ordering keep) fun a ha b hb y hya hyb => ?_
    obtain ⟨z, hz, hvalue⟩ := hat b hb
    obtain rfl : z = y := Option.some.inj (hvalue.symm.trans hyb)
    exact hinj a ha b z hz hya
  · rw [rep_of_sameEntries hsame]
    rw [hkeys, List.mem_filterMap] at hy
    obtain ⟨a, ha, hvalue⟩ := hy
    obtain ⟨z, hz, hvalue'⟩ := hat a ha
    obtain rfl : z = y := Option.some.inj (hvalue'.symm.trans hvalue)
    exact hv.rep_eq hz
  · rw [rep_of_sameEntries hsame, Table.index?, hsame.get?_eq]
    cases hget : t.get? x with
    | none => simp [rep, hget]
    | some a =>
        obtain ⟨y, hy, hrep⟩ := hv.liveAt hget
        rw [hrep, Option.bind_some, Option.bind_some,
          Table.entry?_finalize horder hy.live ordering keep, hkeys]
        refine (idxOf?_filterMap (fun b hb => ?_) (hv.value?_eq hy) fun b hb hvalue =>
          hinj b hb a y hy hvalue).symm
        obtain ⟨z, -, hz⟩ := hat b hb
        simp [hz]
  · rw [← hlength, Table.size_finalize]
    exact t.length_orderOf_le ordering keep

/-- A table that keeps all entries has a position for every name that survives. -/
theorem Valid.mem_keys_finalizeAll (hv : t.Valid) (horder : t.order = none)
    (ordering : TableOrdering) (h : t.rep x = some y) : y ∈ (t.finalizeAll ordering).keys := by
  have hsame := t.sameEntries_finalize ordering fun _ => true
  obtain ⟨a, -, hat⟩ := hv.liveAt_of_rep h
  rw [Table.finalizeAll, Table.keys, Table.order_finalize horder, Option.getD_some,
    List.mem_filterMap]
  refine ⟨a, ?_, by rw [hsame.value?_eq, hv.value?_eq hat]⟩
  obtain ⟨entry, hentry, hredirect⟩ := hat.live
  exact Table.mem_orderOf.mpr ⟨entry, hentry, by simp [Entry.isLive, hredirect], rfl⟩

/-- A table that keeps all entries has as many positions as entries. -/
theorem Valid.length_keys_finalizeAll (hv : t.Valid) (horder : t.order = none)
    (ordering : TableOrdering) :
    (t.finalizeAll ordering).keys.length = (t.finalizeAll ordering).size := by
  obtain ⟨order, hfinal, hlength⟩ := (hv.finalized horder ordering fun _ => true).order
  rw [Table.order_finalize horder] at hfinal
  obtain rfl := Option.some.inj hfinal
  rw [Table.finalizeAll, ← hlength, t.length_orderOf_all, Table.size_finalize]

/-- The index of a name is where the name that survives for it stands. -/
theorem Finalized.getElem?_keys (hf : t.Finalized) {index : Nat} (h : t.index? x = some index) :
    ∃ y, t.rep x = some y ∧ t.keys[index]? = some y := by
  rw [hf.index?_eq] at h
  obtain ⟨y, hy, hindex⟩ := Option.bind_eq_some_iff.mp h
  obtain ⟨hlt, hkey, -⟩ := List.idxOf?_eq_some_iff.mp hindex
  exact ⟨y, hy, hkey ▸ List.getElem?_eq_getElem hlt⟩

theorem Finalized.exists_index (hf : t.Finalized) (hrep : t.rep x = some y) (hy : y ∈ t.keys) :
    ∃ index, t.index? x = some index := by
  rw [hf.index?_eq, hrep, Option.bind_some]
  cases hindex : t.keys.idxOf? y with
  | none => exact absurd hy (List.idxOf?_eq_none_iff.mp hindex)
  | some index => exact ⟨index, rfl⟩

/-- The keys of a finalized table stand at the handles of its order. -/
theorem Finalized.exists_indexed (hf : t.Finalized) :
    ∃ order, t.indexed = .ok order ∧ order.length = t.keys.length ∧
      order.filterMap t.value? = t.keys := by
  obtain ⟨order, horder, hlength⟩ := hf.order
  exact ⟨order, by rw [Table.indexed, horder], hlength, by rw [Table.keys, horder, Option.getD_some]⟩

end UniqueTable

end SyntaxPack
