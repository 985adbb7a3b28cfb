import SyntaxPack.Proofs.Encode.Built
import SyntaxPack.Proofs.Encode.Log
import SyntaxPack.Proofs.Table.Tally
/-!
# SyntaxPack.Proofs.Encode.Uses

What the hits in the tables of a module count.

A walk adds a string, an array or an object to its table each time it meets a reference to
it, and merging adds up. So at any time an entry has as many hits as references to it were
met (`Tallied.usesOf_eq`). That holds of the references that were met on the walk, and
merging takes none of them back: those in the slots of a node that was merged away still
count.
-/

namespace SyntaxPack

theorem UniqueTable.Counts.tallied {κ : Type} [DecidableEq κ] {log : List κ} {t : UniqueTable κ}
    (h : Counts log t) : Table.Tallied t log := by
  obtain ⟨label, check, rfl⟩ := h
  have hw : (counting label check log).WellFormed := wellFormed_counting
  refine ⟨hw, fun x hx => ?_, fun a ha => ?_⟩
  · rw [names_counting]
    exact List.mem_eraseDups.mpr hx
  · have hresolve := ha.resolve_eq
    rw [ha.hitCount_eq]
    obtain ⟨entry, hentry, -⟩ := ha
    have hslot := hentry
    simp only [counting, List.getElem?_map, Option.map_eq_some_iff] at hslot
    obtain ⟨x, hx, rfl⟩ := hslot
    rw [hentry, Option.elim_some, countedEntry, List.count_eq_countP]
    refine List.countP_congr fun y _ => ?_
    rw [beq_iff_eq, decide_eq_true_eq]
    constructor
    · rintro rfl
      exact hw.get?_eq_some_iff.mpr ⟨a, _, hentry, rfl, hresolve⟩
    · intro hget
      exact Option.some.inj ((mem_of_get?_counting hget).symm.trans hx)

namespace Module

variable {input : WalkInput} {log : List Value} {m m' : Module} {source target : NodeId}
  {shape : ShapeId} {shapes : List ShapeId}

/-- The hits in the tables count the values in a list. -/
structure Tallied (input : WalkInput) (log : List Value) (m : Module) : Prop where
  wellShaped : m.objects.WellShaped
  partitioned : m.objects.partitioned = input.config.partitionedTables
  strings : Table.Tallied m.strings (log.filterMap Value.string?)
  arrays : Table.Tallied m.arrays (log.filterMap Value.array?)
  objects : ∀ shape t, m.objects.table? shape = some t →
    Table.Tallied t (input.objectsOf shape log)

theorem Logged.tallied (h : Logged input log m) : Tallied input log m :=
  ⟨h.wellShaped, h.partitioned, h.strings.tallied, h.arrays.tallied,
    fun shape t ht => (h.objects shape t ht).tallied⟩

/-- The hits of every entry that was not merged away fit into the 32 bits that they are counted in.
Entries that were merged away keep the hits that they had until then, and no one adds to these. -/
structure HitsFit (m : Module) : Prop where
  strings : ∀ a, m.strings.IsLive a → m.strings.hitCount a < UInt32.size
  arrays : ∀ a, m.arrays.IsLive a → m.arrays.hitCount a < UInt32.size
  objects : ∀ table ∈ m.objects.tables, ∀ a, Table.IsLive table.table a →
    Table.hitCount table.table a < UInt32.size

/-- No entry has more hits than there are values that were counted. -/
theorem Tallied.hitsFit (h : Tallied input log m) (hlog : log.length < UInt32.size) : m.HitsFit := by
  refine ⟨fun a ha => ?_, fun a ha => ?_, fun table htable a ha => ?_⟩
  · have hle := h.strings.hitCount_le ha
    have hfilter := List.length_filterMap_le Value.string? log
    omega
  · have hle := h.arrays.hitCount_le ha
    have hfilter := List.length_filterMap_le Value.array? log
    omega
  · obtain ⟨shape, ht, -⟩ := h.wellShaped.exists_table? htable
    have hle := (h.objects shape _ ht).hitCount_le ha
    have hfilter : (input.objectsOf shape log).length ≤ log.length := List.length_filterMap_le _ log
    omega

/-! ### Merging -/

theorem Tallied.dedupeArray (h : Tallied input log m) (hrun : m.dedupeArray source target = .ok m') :
    Tallied input log m' := by
  obtain ⟨arrays, harrays, h₁⟩ := bind_eq_ok.mp hrun
  obtain rfl := Except.ok.inj h₁
  exact ⟨h.wellShaped, h.partitioned, h.strings, h.arrays.dedupe harrays, h.objects⟩

/-- Nothing can be merged in a table that is set up for the purpose. -/
theorem exists_table_of_dedupe {registry : Registry} {objects : ObjectTables}
    (hw : m.objects.WellShaped)
    (h : m.objects.update registry shape (·.dedupe source target) = .ok objects) :
    ∃ t, m.objects.table? shape = some t := by
  cases ht : m.objects.table? shape with
  | some t => exact ⟨t, rfl⟩
  | none =>
      obtain ⟨t', ht', -⟩ := hw.updated h
      rw [ObjectTables.tableOrEmpty, ht, Option.getD_none] at ht'
      obtain ⟨a, -, ha, -⟩ := Table.dedupe_eq_ok ht'
      rw [Table.get?_eq_none_iff.mpr (by rw [UniqueTable.names_empty]; exact List.not_mem_nil)] at ha
      simp at ha

theorem Tallied.dedupeObject (h : Tallied input log m)
    (hrun : m.dedupeObject input.registry shape source target = .ok m') : Tallied input log m' := by
  obtain ⟨objects, hobjects, h₁⟩ := bind_eq_ok.mp hrun
  obtain rfl := Except.ok.inj h₁
  obtain ⟨t, ht⟩ := exists_table_of_dedupe h.wellShaped hobjects
  obtain ⟨t', ht', hu⟩ := h.wellShaped.updated hobjects
  rw [ObjectTables.tableOrEmpty, ht, Option.getD_some] at ht'
  refine ⟨hu.wellShaped, hu.partitioned.trans h.partitioned, h.strings, h.arrays, fun other u hother => ?_⟩
  by_cases htogether : m.objects.Together shape other
  · obtain rfl := Option.some.inj ((hu.together other htogether).symm.trans hother)
    rw [WalkInput.objectsOf_congr h.partitioned htogether]
    exact (h.objects shape t ht).dedupe ht'
  · exact h.objects other u (hu.apart other htogether ▸ hother)

theorem Tallied.mergeNode (h : Tallied input log m) {own : Option ShapeId}
    (hrun : Module.mergeNode input.registry own m source target = .ok m') : Tallied input log m' := by
  cases own with
  | some shape => exact h.dedupeObject hrun
  | none => exact h.dedupeArray hrun

theorem Tallied.mergeClass {state state' : Nat × Module} (h : Tallied input log state.2)
    {c : NodeClass} {minUses : Nat}
    (hrun : Module.mergeClass input.registry minUses state c = .ok state') :
    Tallied input log state'.2 :=
  mergeClass_induction (motive := fun state => Tallied input log state.2) hrun h
    fun _ _ _ _ _ _ hstate hmerge => hstate.mergeNode hmerge

theorem Tallied.finalize (h : Tallied input log m) (ordering : TableOrdering) (limit : Option Nat) :
    Tallied input log (m.finalize ordering limit) := by
  refine ⟨?_, h.partitioned, h.strings.finalize ordering _, h.arrays.finalize ordering _,
    fun shape t ht => ?_⟩
  · exact h.wellShaped.map (fun t => { t with table := t.table.finalize ordering (keptFor limit) })
      fun _ => rfl
  · rw [table?_finalize] at ht
    obtain ⟨u, hu, rfl⟩ := Option.map_eq_some_iff.mp ht
    exact (h.objects shape u hu).finalize ordering _

/-! ### Entries -/

/-- The references to nodes for which a node survives, among values. -/
def referencesTo (m : Module) (tree : Tree) (registry : Registry) (node : NodeId)
    (values : List Value) : Nat :=
  values.countP fun value => value.node?.bind (m.repOf tree registry) = some node

theorem countP_filterMap_bind {α β γ : Type} [DecidableEq γ] {f : α → Option β} {g : β → Option γ}
    {c : γ} (l : List α) : ((l.filterMap f).countP fun b => g b = some c) =
      l.countP fun a => (f a).bind g = some c := by
  rw [List.countP_filterMap]
  refine List.countP_congr fun a _ => ?_
  cases f a <;> simp

section Entries

variable {id : NodeId} {a : Handle}

/-- An array refers to an entry if the node at the entry survives for it. -/
theorem Filled.array_bind_iff (hf : Filled input.tree input.registry shapes m) {value : Value}
    (hvalue : m.Holds input.tree input.registry value) (hat : m.arrays.LiveAt a id) :
    value.array?.bind m.arrays.get? = some a ↔
      value.node?.bind (m.repOf input.tree input.registry) = some id := by
  have hid : (input.tree.array? id).isSome = true := hf.array_of_mem id hat.mem
  cases value with
  | null | boolean _ | number _ | string _ => simp [Value.array?, Value.node?]
  | array other =>
      simp only [Value.array?, Value.node?, Option.bind_some]
      rw [repOf_array hvalue.1]
      exact hf.arrays.get?_eq_iff hat
  | object other =>
      obtain ⟨own, hown, -⟩ := hvalue
      simp only [Value.array?, Value.node?, Option.bind_some, Option.bind_none, reduceCtorEq, false_iff]
      intro hrep
      have hsame := hf.isSome_array?_of_repOf hrep
      rw [hid, Tree.array?_eq_none_of_shape hown] at hsame
      simp at hsame

/-- An object refers to an entry if the node at the entry survives for it. -/
theorem Filled.object_bind_iff (hf : Filled input.tree input.registry shapes m)
    {t : UniqueTable NodeId} (ht : m.objects.table? shape = some t) {value : Value}
    (hvalue : m.Holds input.tree input.registry value) (hat : t.LiveAt a id) :
    value.object?.bind t.get? = some a ↔
      value.node?.bind (m.repOf input.tree input.registry) = some id := by
  obtain ⟨own, hown, htogether⟩ := hf.shape_of_mem shape t ht id hat.mem
  have htable := (ObjectTables.table?_congr htogether).symm.trans ht
  cases value with
  | null | boolean _ | number _ | string _ => simp [Value.object?, Value.node?]
  | array other =>
      simp only [Value.object?, Value.node?, Option.bind_some, Option.bind_none, reduceCtorEq, false_iff]
      intro hrep
      have hsame := hf.isSome_array?_of_repOf hrep
      rw [Tree.array?_eq_none_of_shape hown, hvalue.1] at hsame
      simp at hsame
  | object other =>
      obtain ⟨own', hown', -⟩ := hvalue
      have hreach := (hf.objects shape t ht).get?_eq_iff (y := other) hat
      simp only [Value.object?, Value.node?, Option.bind_some]
      constructor
      · intro hget
        have hmem := (hf.objects shape t ht).mem_of_rep (hreach.mp hget)
        obtain ⟨own'', hown'', hsame⟩ := hf.shape_of_mem shape t ht other hmem.1
        obtain rfl := Option.some.inj (hown'.symm.trans hown'')
        rw [repOf_object hown', ← ObjectTables.table?_congr hsame, ht, Option.bind_some]
        exact hreach.mp hget
      · intro hrep
        have hsame := hf.together_of_repOf hrep hown' hown
        rw [repOf_object hown', ObjectTables.table?_congr hsame, htable, Option.bind_some] at hrep
        exact hreach.mpr hrep

/-- Whatever is found in the table of a shape is in it. -/
theorem Filled.tabled_bind_iff (hf : Filled input.tree input.registry shapes m)
    (hp : m.objects.partitioned = input.config.partitionedTables) {t : UniqueTable NodeId}
    (ht : m.objects.table? shape = some t) (hat : t.LiveAt a id) (value : Value) :
    (input.tree.tabled? input.registry input.config.partitionedTables shape value).bind t.get? =
        some a ↔ value.object?.bind t.get? = some a := by
  rw [Tree.tabled?]
  cases value.object? with
  | none => rfl
  | some other =>
      have hin : t.get? other = some a →
          (!input.config.partitionedTables || input.tree.shape? input.registry other = some shape) =
            true := by
        intro hget
        have hrep := ((hf.objects shape t ht).get?_eq_iff hat).mp hget
        obtain ⟨own, hown, htogether⟩ :=
          hf.shape_of_mem shape t ht other ((hf.objects shape t ht).mem_of_rep hrep).1
        rcases htogether with hshared | rfl
        · rw [← hp, hshared]
          rfl
        · simp [hown]
      rw [Option.filter_some]
      split
      · rfl
      · rename_i hout
        exact ⟨fun hnone => by simp at hnone, fun hget => absurd (hin hget) hout⟩

/-- A node that survives as itself has as many hits as references to it were met. -/
theorem Tallied.usesOf_eq (h : Tallied input log m)
    (hf : Filled input.tree input.registry shapes m)
    (hlog : ∀ value ∈ log, m.Holds input.tree input.registry value)
    (hrep : m.repOf input.tree input.registry id = some id) :
    m.usesOf (input.tree.shape? input.registry id) id =
      m.referencesTo input.tree input.registry id log := by
  by_cases harray : (input.tree.array? id).isSome = true
  · rw [repOf_array harray] at hrep
    obtain ⟨a, hget, hat⟩ := hf.arrays.liveAt_of_rep hrep
    rw [Tree.shape?_eq_none_of_array harray]
    simp only [usesOf, Option.bind_some, hget, Option.map_some, Option.getD_some]
    rw [h.arrays.hits a hat.live, countP_filterMap_bind, referencesTo]
    refine List.countP_congr fun value hvalue => ?_
    rw [decide_eq_true_eq, decide_eq_true_eq, hf.array_bind_iff (hlog value hvalue) hat]
  · rw [repOf, if_neg harray] at hrep
    obtain ⟨shape, hshape, hrep⟩ := Option.bind_eq_some_iff.mp hrep
    obtain ⟨t, ht, hrep⟩ := Option.bind_eq_some_iff.mp hrep
    obtain ⟨a, hget, hat⟩ := (hf.objects shape t ht).liveAt_of_rep hrep
    simp only [usesOf, hshape, ht, Option.bind_some, hget, Option.map_some, Option.getD_some]
    rw [(h.objects shape t ht).hits a hat.live, WalkInput.objectsOf, countP_filterMap_bind, referencesTo]
    refine List.countP_congr fun value hvalue => ?_
    rw [decide_eq_true_eq, decide_eq_true_eq, hf.tabled_bind_iff h.partitioned ht hat,
      hf.object_bind_iff ht (hlog value hvalue) hat]

end Entries

end Module

end SyntaxPack
