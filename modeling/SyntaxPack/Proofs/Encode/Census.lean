import SyntaxPack.Proofs.Encode.Acceptance
/-!
# SyntaxPack.Proofs.Encode.Census

A walk as a census.

What a walk meets are the root and the slots of the nodes that it opens, each once, in the order
in which it goes through them (`Visits.perm`). The nodes that it opens are those in use, each once
again. So the tables are a census of the slots in use (`Censused`): they have an entry for
everything that is held by one, with as many hits as there are slots that hold it. The order of
the walk shows in nothing but the order of the entries.
-/

namespace SyntaxPack

namespace Tree

variable (tree : Tree) (registry : Registry)

open Classical in
/-- The nodes that the root leads to through slots, each once. -/
noncomputable def nodesInUse : List NodeId :=
  ((List.range tree.size).map NodeId.mk).filter fun id => tree.InUse registry id

/-- What holds values that are encoded: the root, and the slots of the nodes in use. -/
noncomputable def slotsInUse : List Value :=
  tree.root :: (tree.nodesInUse registry).flatMap (tree.slots registry)

variable {tree registry}

theorem mem_nodesInUse {id : NodeId} :
    id ∈ tree.nodesInUse registry ↔ id.index < tree.size ∧ tree.InUse registry id := by
  simp only [nodesInUse, List.mem_filter, List.mem_map, List.mem_range, decide_eq_true_eq]
  refine and_congr_left fun _ => ⟨?_, fun hlt => ⟨id.index, hlt, rfl⟩⟩
  rintro ⟨i, hi, rfl⟩
  exact hi

theorem nodup_nodesInUse : (tree.nodesInUse registry).Nodup :=
  (List.nodup_range.map fun _ _ heq => congrArg NodeId.index heq).filter _

end Tree

/-- A table that has an entry for each of some names, and counts in how many slots they are held. -/
structure UniqueTable.Censused {κ : Type} (t : UniqueTable κ) (held : κ → Value)
    (slots : List Value) (registered : κ → Prop) : Prop where
  /-- No name has two entries. -/
  nodup : t.names.Nodup
  /-- The names that have an entry. -/
  mem_iff : ∀ x, x ∈ t.names ↔ registered x
  /-- Every entry stands for itself. -/
  plain : ∀ entry ∈ t.entries, entry.isLive = true ∧ entry.value = entry.name
  /-- The hits of an entry are the slots that hold its name. -/
  hits : ∀ entry ∈ t.entries, entry.hitCount = slots.count (held entry.name)
  /-- The hits stay in range if there are no more slots than that. -/
  bounded : slots.length < UInt32.size → ∀ entry ∈ t.entries, entry.hitCount < UInt32.size

theorem count_filterMap {κ : Type} [DecidableEq κ] {f : Value → Option κ} {x : κ} {value : Value}
    (hf : ∀ other, f other = some x ↔ other = value) (l : List Value) :
    (l.filterMap f).count x = l.count value := by
  rw [List.count_eq_countP, List.countP_filterMap, List.count_eq_countP]
  refine List.countP_congr fun other _ => ?_
  rw [beq_iff_eq, ← hf]
  cases f other <;> simp

/-- A table to which names were added one after another is a census of what they were added for. -/
theorem UniqueTable.Counts.censused {κ : Type} [DecidableEq κ] {t : UniqueTable κ}
    {log slots : List Value} {f : Value → Option κ} {held : κ → Value} {registered : κ → Prop}
    (h : Counts (log.filterMap f) t) (hperm : log.Perm slots)
    (hf : ∀ x, registered x → ∀ value, f value = some x ↔ value = held x)
    (hmem : ∀ x, x ∈ log.filterMap f ↔ registered x) : t.Censused held slots registered := by
  have hhits : ∀ entry ∈ t.entries, entry.isLive = true ∧ entry.value = entry.name ∧
      entry.hitCount = slots.count (held entry.name) := by
    obtain ⟨label, check, rfl⟩ := h
    intro entry hentry
    obtain ⟨x, hx, rfl⟩ := List.mem_map.mp hentry
    refine ⟨rfl, rfl, ?_⟩
    rw [← hperm.count_eq]
    exact count_filterMap (hf x ((hmem x).mp (List.mem_eraseDups.mp hx))) log
  refine ⟨?_, fun x => ?_, fun entry hentry => ⟨(hhits entry hentry).1, (hhits entry hentry).2.1⟩,
    fun entry hentry => (hhits entry hentry).2.2, fun hlt entry hentry => ?_⟩
  · rw [h.names]
    exact Firsts.nodup_eraseDups _
  · rw [h.names, List.mem_eraseDups, hmem]
  · rw [(hhits entry hentry).2.2]
    exact Nat.lt_of_le_of_lt List.count_le_length hlt

namespace Module

variable {input : WalkInput} {id : NodeId}

/-- What a walk returns: tables with exactly what is in use, counted, and the nodes in use, each
behind the nodes it leads to. -/
structure Census (input : WalkInput) (m : Module) (postOrder : List NodeId) : Prop where
  /-- Every node in use is an array or an object of a registered shape. -/
  kinds : ∀ id, input.tree.InUse input.registry id →
    (input.tree.array? id).isSome = true ∨ (input.tree.shape? input.registry id).isSome = true
  /-- The strings in use. -/
  strings : m.strings.Censused .string (input.tree.slotsInUse input.registry)
    fun s => .string s ∈ input.tree.slotsInUse input.registry
  /-- The arrays in use. -/
  arrays : m.arrays.Censused .array (input.tree.slotsInUse input.registry)
    fun id => input.tree.InUse input.registry id ∧ (input.tree.array? id).isSome = true
  /-- The objects in use: all of them where there is one table, else those of its shape. -/
  objects : ∀ table ∈ m.objects.tables,
    UniqueTable.Censused table.table .object (input.tree.slotsInUse input.registry) fun id =>
      input.tree.InUse input.registry id ∧ ∃ shape, input.tree.shape? input.registry id = some shape ∧
        (table.shape = none ∨ table.shape = some shape)
  /-- No shape has two tables. -/
  shapes_nodup : m.objects.shapes.Nodup
  /-- There is one table for all objects, or there is one for each shape in use. -/
  mem_shapes : ∀ shape, shape ∈ m.objects.shapes ↔
    if input.config.partitionedTables then ∃ own, shape = some own ∧
      ∃ id, input.tree.InUse input.registry id ∧ input.tree.shape? input.registry id = some own
    else shape = none
  /-- The element tag of an array is that of its elements, or any if they have none in common. -/
  elementTags : ∀ id elements, input.tree.InUse input.registry id →
    input.tree.array? id = some elements →
    ∃ tags, List.Forall₂ (fun value tag => input.tagOf value = .ok tag) elements tags ∧
      m.elementTag? id = some ((Tag.unify tags).getD (.builtin .any))
  /-- No node is left twice. -/
  postOrder_nodup : postOrder.Nodup
  /-- The nodes that are left are those in use. -/
  mem_postOrder : ∀ id, id ∈ postOrder ↔ input.tree.InUse input.registry id
  /-- Where the root leads to no cycle, the nodes that a node leads to are left before it. -/
  children_first : (∀ id, input.tree.InUse input.registry id →
      ¬ input.tree.Above input.registry id id) →
    ∀ before id after, postOrder = before ++ id :: after →
      ∀ child, input.tree.HasChild input.registry id child → child ∈ before

namespace Trace

variable (w : Trace input)

/-- The nodes of a walk are those in use. -/
theorem hasNode_iff_inUse : w.HasNode id ↔ input.tree.InUse input.registry id :=
  ⟨fun hid => w.walked.inUse id ((w.walked.mem_iff id).mpr hid),
    fun hid => (w.walked.mem_iff id).mp (w.walked.mem_of_inUse hid)⟩

/-- What is met are the slots in use. -/
theorem log_perm : w.log.Perm (input.tree.slotsInUse input.registry) := by
  have hopened : w.opened.Perm (input.tree.nodesInUse input.registry) := by
    refine (List.perm_ext_iff_of_nodup w.nodup_opened Tree.nodup_nodesInUse).mpr fun id => ?_
    rw [w.mem_opened, Tree.mem_nodesInUse, w.hasNode_iff_inUse]
    refine (and_iff_right_of_imp fun hid => ?_).symm
    obtain ⟨node, hnode⟩ := (w.hasNode_iff_inUse.mpr hid).exists_node
    exact Tree.lt_size_of_node? hnode
  exact w.visits.perm.trans ((hopened.flatMap_right _).cons _)

/-- A node in use is met as an array or as an object. -/
theorem mem_log_of_inUse (hid : input.tree.InUse input.registry id) :
    .array id ∈ w.log ∨ .object id ∈ w.log := by
  obtain ⟨value, hvalue, hnode⟩ := w.exists_mem_log (w.hasNode_iff_inUse.mpr hid)
  cases value with
  | null | boolean _ | number _ | string _ => simp [Value.node?] at hnode
  | array other => exact Or.inl (Option.some.inj hnode ▸ hvalue)
  | object other => exact Or.inr (Option.some.inj hnode ▸ hvalue)

theorem isSome_array?_of_mem_log (h : .array id ∈ w.log) : (input.tree.array? id).isSome = true :=
  (w.holds_of_mem_log h).1

theorem isSome_shape?_of_mem_log (h : .object id ∈ w.log) :
    (input.tree.shape? input.registry id).isSome = true := by
  obtain ⟨shape, hshape, -⟩ := w.holds_of_mem_log h
  exact Option.isSome_iff_exists.mpr ⟨shape, hshape⟩

include w in
theorem kind_of_inUse (hid : input.tree.InUse input.registry id) :
    (input.tree.array? id).isSome = true ∨
      (input.tree.shape? input.registry id).isSome = true :=
  (w.mem_log_of_inUse hid).imp w.isSome_array?_of_mem_log w.isSome_shape?_of_mem_log

/-- What is met as an array are the arrays in use. -/
theorem array_mem_log : .array id ∈ w.log ↔
    input.tree.InUse input.registry id ∧ (input.tree.array? id).isSome = true := by
  constructor
  · intro hmem
    exact ⟨w.hasNode_iff_inUse.mp (w.hasNode_of_mem_log hmem rfl), w.isSome_array?_of_mem_log hmem⟩
  · intro h
    refine (w.mem_log_of_inUse h.1).resolve_right fun hobject => ?_
    have hshape := w.isSome_shape?_of_mem_log hobject
    rw [Tree.shape?_eq_none_of_array h.2] at hshape
    cases hshape

/-- What is met as an object are the objects in use. -/
theorem object_mem_log : .object id ∈ w.log ↔
    input.tree.InUse input.registry id ∧ (input.tree.shape? input.registry id).isSome = true := by
  constructor
  · intro hmem
    exact ⟨w.hasNode_iff_inUse.mp (w.hasNode_of_mem_log hmem rfl), w.isSome_shape?_of_mem_log hmem⟩
  · intro h
    refine (w.mem_log_of_inUse h.1).resolve_left fun harray => ?_
    rw [Tree.shape?_eq_none_of_array (w.isSome_array?_of_mem_log harray)] at h
    cases h.2

theorem censused_strings : w.module.strings.Censused .string (input.tree.slotsInUse input.registry)
    fun s => .string s ∈ input.tree.slotsInUse input.registry := by
  have hstring : ∀ s value, Value.string? value = some s ↔ value = .string s := by
    intro s value
    cases value <;> simp [Value.string?]
  refine w.logged.strings.censused w.log_perm (fun s _ => hstring s) fun s => ?_
  rw [List.mem_filterMap, ← w.log_perm.mem_iff]
  simp only [hstring, exists_eq_right]

theorem censused_arrays : w.module.arrays.Censused .array (input.tree.slotsInUse input.registry)
    fun id => input.tree.InUse input.registry id ∧ (input.tree.array? id).isSome = true := by
  have harray : ∀ id value, Value.array? value = some id ↔ value = .array id := by
    intro id value
    cases value <;> simp [Value.array?]
  refine w.logged.arrays.censused w.log_perm (fun id _ => harray id) fun id => ?_
  rw [List.mem_filterMap, ← w.array_mem_log]
  simp only [harray, exists_eq_right]

theorem censused_objects {table : ObjectTable} (htable : table ∈ w.module.objects.tables) :
    UniqueTable.Censused table.table .object (input.tree.slotsInUse input.registry) fun id =>
      input.tree.InUse input.registry id ∧ ∃ shape, input.tree.shape? input.registry id = some shape ∧
        (table.shape = none ∨ table.shape = some shape) := by
  obtain ⟨shape, ht, hown⟩ := w.logged.wellShaped.exists_table? htable
  have hpartitioned := w.logged.partitioned
  -- an object is in the table if the table is for all objects, or for those of its shape
  have hplace : ∀ own, (table.shape = none ∨ table.shape = some own) ↔
      (input.config.partitionedTables = false ∨ own = shape) := by
    intro own
    cases hp : input.config.partitionedTables with
    | true =>
        rw [hown (hpartitioned.trans hp)]
        simp [eq_comm]
    | false =>
        obtain ⟨t, htables⟩ := w.logged.wellShaped.shared (hpartitioned.trans hp)
        rw [htables, List.mem_singleton] at htable
        simp [htable]
  refine (w.logged.objects shape _ ht).censused w.log_perm (fun id hid value => ?_) fun id => ?_
  · obtain ⟨-, own, hshape, hin⟩ := hid
    rw [Tree.tabled?_eq_some_iff, hshape, Option.some.injEq]
    exact and_iff_left ((hplace own).mp hin)
  · show id ∈ input.objectsOf shape w.log ↔ _
    simp only [Logged.mem_objectsOf, w.object_mem_log, hplace, Option.isSome_iff_exists]
    constructor
    · rintro ⟨⟨hid, own, hshape⟩, hin⟩
      exact ⟨hid, own, hshape, by rwa [hshape, Option.some.injEq] at hin⟩
    · rintro ⟨hid, own, hshape, hin⟩
      exact ⟨⟨hid, own, hshape⟩, by rwa [hshape, Option.some.injEq]⟩

theorem shapes_nodup : w.module.objects.shapes.Nodup := by
  rw [w.logged.shapes]
  split
  · exact (Firsts.nodup_eraseDups _).map fun _ _ => Option.some.inj
  · exact List.nodup_singleton _

/-- The shapes in use are those of the objects in use. -/
theorem mem_shapesOf {own : ShapeId} : own ∈ input.shapesOf w.log ↔
    ∃ id, input.tree.InUse input.registry id ∧ input.tree.shape? input.registry id = some own := by
  rw [WalkInput.shapesOf, List.mem_eraseDups, List.mem_filterMap]
  constructor
  · rintro ⟨value, hvalue, hshape⟩
    cases value with
    | null | boolean _ | number _ | string _ | array _ =>
        simp [Tree.shapeOf?, Value.object?] at hshape
    | object id => exact ⟨id, (w.object_mem_log.mp hvalue).1, hshape⟩
  · rintro ⟨id, hid, hshape⟩
    exact ⟨_, w.object_mem_log.mpr ⟨hid, by simp [hshape]⟩, by
      rw [Tree.shapeOf?, Value.object?, Option.bind_some, hshape]⟩

theorem mem_shapes (shape : Option ShapeId) : shape ∈ w.module.objects.shapes ↔
    if input.config.partitionedTables then ∃ own, shape = some own ∧
      ∃ id, input.tree.InUse input.registry id ∧ input.tree.shape? input.registry id = some own
    else shape = none := by
  rw [w.logged.shapes]
  split
  · simp only [List.mem_map, w.mem_shapesOf, and_comm, @eq_comm _ shape]
  · exact List.mem_singleton

/-- The element tag of an array in use. -/
theorem elementTag?_of_inUse {elements : List Value} (hid : input.tree.InUse input.registry id)
    (helements : input.tree.array? id = some elements) :
    ∃ tags, List.Forall₂ (fun value tag => input.tagOf value = .ok tag) elements tags ∧
      w.module.elementTag? id = some ((Tag.unify tags).getD (.builtin .any)) := by
  obtain ⟨tags, tag, htags, htag, hset⟩ :=
    (w.walked.complete id (w.walked.mem_of_inUse hid)).array elements helements
  refine ⟨tags, htags, hset.trans (congrArg some ?_)⟩
  unfold WalkInput.elementTag at htag
  cases hunify : Tag.unify tags with
  | some common =>
      rw [hunify] at htag
      exact (Except.ok.inj htag).symm
  | none =>
      simp only [hunify] at htag
      split at htag
      · exact (Except.ok.inj htag).symm
      · cases htag

theorem children_first (hacyclic : ∀ id, input.tree.InUse input.registry id →
      ¬ input.tree.Above input.registry id id) {before after : List NodeId}
    (hsplit : w.postOrder = before ++ id :: after) {child : NodeId}
    (hchild : input.tree.HasChild input.registry id child) : child ∈ before := by
  have hid : id ∈ w.postOrder := hsplit ▸ List.mem_append_right _ List.mem_cons_self
  obtain ⟨value, hvalue, hnode⟩ := hchild
  have hreverse : w.postOrder.reverse = after.reverse ++ id :: before.reverse := by simp [hsplit]
  rcases w.walked.ordered _ _ _ hreverse value hvalue child hnode with hbefore | hcycle
  · exact List.mem_reverse.mp hbefore
  · have hstep : input.tree.HasChild input.registry id child := ⟨value, hvalue, hnode⟩
    exact absurd (hcycle.head hstep) (hacyclic id (w.walked.inUse id hid))

theorem census : Census input w.module w.postOrder where
  kinds _ := w.kind_of_inUse
  strings := w.censused_strings
  arrays := w.censused_arrays
  objects _ := w.censused_objects
  shapes_nodup := w.shapes_nodup
  mem_shapes := w.mem_shapes
  elementTags _ _ := w.elementTag?_of_inUse
  postOrder_nodup := w.walked.nodup
  mem_postOrder id := (w.walked.mem_iff id).trans w.hasNode_iff_inUse
  children_first hacyclic _ _ _ hsplit _ := w.children_first hacyclic hsplit

end Trace

/-- A walk that comes to its end is a census of the tree. -/
theorem walk_census {description : RegistryDescription} {registry : Registry} {tree : Tree}
    {config : EncodingConfig} {m : Module} {postOrder : List NodeId}
    (hregistry : description.build = .ok registry)
    (h : (⟨tree, registry, config⟩ : WalkInput).walk = .ok (m, postOrder)) :
    Census ⟨tree, registry, config⟩ m postOrder := by
  obtain ⟨w, rfl, rfl⟩ := WalkInput.exists_trace (RegistryDescription.valid_of_build hregistry) h
  exact w.census

/-- A list that holds one pair twice. -/
def pairTwice : Tree where
  nodes := #[.array [.object ⟨1⟩, .object ⟨1⟩],
    .object ⟨"Pair", [("left", .number ⟨0x4000000000000000⟩)]⟩]
  root := .array ⟨0⟩

/-- The pair has two hits and is left before the list, whose element tag is that of pairs. -/
theorem pairTwice_census : RegistryDescription.pairs.build = .ok .pairs ∧
    ∃ m, (⟨pairTwice, .pairs, {}⟩ : WalkInput).walk = .ok (m, [⟨1⟩, ⟨0⟩]) ∧
      Census ⟨pairTwice, .pairs, {}⟩ m [⟨1⟩, ⟨0⟩] ∧
      m.objects.tables.map (·.table.entries.map (·.hitCount)) = [[2]] ∧
      m.elementTag? ⟨0⟩ = some (.shape ⟨0⟩) := by
  have hsome : (⟨pairTwice, .pairs, {}⟩ : WalkInput).walk.toOption.isSome = true := by
    decide +kernel
  obtain ⟨⟨m, postOrder⟩, hm⟩ := Option.isSome_iff_exists.mp hsome
  have hwalk := eq_ok_of_toOption hm
  have hresult : (⟨pairTwice, .pairs, {}⟩ : WalkInput).walk.toOption.map (fun found =>
      (found.2, found.1.objects.tables.map (·.table.entries.map (·.hitCount)),
        found.1.elementTag? ⟨0⟩)) = some ([⟨1⟩, ⟨0⟩], [[2]], some (.shape ⟨0⟩)) := by
    decide +kernel
  rw [hm, Option.map_some, Option.some.injEq, Prod.mk.injEq, Prod.mk.injEq] at hresult
  obtain ⟨rfl, hhits, htag⟩ := hresult
  exact ⟨Registry.build_pairs, m, hwalk, walk_census Registry.build_pairs hwalk, hhits, htag⟩

end Module

end SyntaxPack
