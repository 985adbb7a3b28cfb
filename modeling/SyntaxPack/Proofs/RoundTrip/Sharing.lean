import SyntaxPack.Proofs.RoundTrip.Readable
import SyntaxPack.Proofs.RoundTrip.Reencoded
/-!
# SyntaxPack.Proofs.RoundTrip.Sharing

Sharing is kept exactly.

Structural equality does not see whether two references lead to one node or to two equal ones.
Where no object is written in place, the decoder has one node for every entry of the tables
that survived, and a reference to a node leads to the entry that survived for it
(`Module.Resolved`). So two nodes of a tree become one if and only if deduplication merged
them, and nothing else is added or lost.

That a reference leads to a node of the right number (`Replay.Copies`) is less than that: nodes
of one class have one number, and not every class is merged. The proof therefore reads the
module back a second time, with every node numbered by what survives for it.
-/

namespace SyntaxPack

/-- A value with its node replaced. -/
def Value.mapNode (f : NodeId → NodeId) : Value → Value
  | .array id => .array (f id)
  | .object id => .object (f id)
  | value => value

namespace Module

variable {description : RegistryDescription} {registry : Registry} {tree decoded : Tree}
  {config : EncodingConfig} {bytes : List UInt8} {f : NodeId → NodeId} {id x y : NodeId}
  {input : WalkInput} {shapes : List ShapeId} {rank : NodeId → Nat} {m : Module} {c : Replay}

/-- A decoded tree has one node for what survives of all nodes that were merged into one another,
and these nodes refer to one another as the surviving ones do. -/
structure Resolved (m : Module) (tree : Tree) (registry : Registry) (decoded : Tree)
    (f : NodeId → NodeId) : Prop where
  eq_iff : ∀ x y, m.HasNode tree registry x → m.HasNode tree registry y →
    (f x = f y ↔ m.repOf tree registry x = m.repOf tree registry y)
  root : decoded.root = tree.root.mapNode f
  array : ∀ id elements, m.HasNode tree registry id → m.repOf tree registry id = some id →
    tree.array? id = some elements → decoded.array? (f id) = some (elements.map (·.mapNode f))
  object : ∀ id object shape, m.HasNode tree registry id → m.repOf tree registry id = some id →
    tree.object? id = some object → registry.lookup object.shape = some shape →
      decoded.object? (f id) = some ⟨object.shape, (registry.fields shape).map fun field =>
        (field.name, (object.get field.name).mapNode f)⟩
  size : decoded.size = m.liveNodes
  onto : ∀ i < decoded.size, ∃ id, m.HasNode tree registry id ∧
    m.repOf tree registry id = some id ∧ f id = ⟨i⟩

/-! ### Numbers by what survives -/

/-- The position in the tree of the node that survives for a node. -/
def survivorIndex (m : Module) (tree : Tree) (registry : Registry) (id : NodeId) : Nat :=
  (m.repOf tree registry id).elim 0 (·.index)

namespace Located

variable (h : Located input shapes rank m)
include h

/-- What survives for a node survives for itself. -/
theorem repOf_repOf (hid : m.HasNode input.tree input.registry id)
    (hrep : m.repOf input.tree input.registry id = some y) :
    m.repOf input.tree input.registry y = some y := by
  obtain ⟨other, hother, hnode, hrank⟩ := h.rep id hid
  obtain rfl : y = other := Option.some.inj (hrep.symm.trans hother)
  have hkind := h.kind y id hnode hid hrank
  rcases hid with ⟨harray, -⟩ | ⟨shape, hshape, -⟩
  · rw [repOf_array harray] at hrep
    rw [repOf_array (hkind.array.trans harray)]
    exact h.arrays.valid.rep_rep hrep
  · rw [repOf_object hshape] at hrep
    rw [repOf_object (hkind.shape.trans hshape)]
    obtain ⟨t, ht, hrep⟩ := Option.bind_eq_some_iff.mp hrep
    rw [ht]
    exact (h.objects shape t ht).valid.rep_rep hrep

theorem survivorIndex_inj (hx : m.HasNode input.tree input.registry x)
    (hy : m.HasNode input.tree input.registry y)
    (heq : m.survivorIndex input.tree input.registry x = m.survivorIndex input.tree input.registry y) :
    m.repOf input.tree input.registry x = m.repOf input.tree input.registry y := by
  obtain ⟨a, ha, -⟩ := h.rep x hx
  obtain ⟨b, hb, -⟩ := h.rep y hy
  rw [survivorIndex, survivorIndex, ha, hb] at heq
  rw [ha, hb]
  exact congrArg some (congrArg NodeId.mk heq)

/-- The module is located under these numbers as well: what was merged is of one kind. -/
theorem bySurvivor : Located input shapes (m.survivorIndex input.tree input.registry) m where
  filled := h.filled
  tags := h.tags
  strings := h.strings
  arrays := h.arrays
  objects := h.objects
  partitioned := h.partitioned
  string_count := h.string_count
  array_count := h.array_count
  object_count := h.object_count
  string_keys := h.string_keys
  array_keys := h.array_keys
  object_keys := h.object_keys
  rep id hid := by
    obtain ⟨y, hy, hnode, -⟩ := h.rep id hid
    exact ⟨y, hy, hnode, by rw [survivorIndex, survivorIndex, hy, h.repOf_repOf hid hy]⟩
  kind a b ha hb heq := by
    obtain ⟨y, hy, hnode, hrank⟩ := h.rep a ha
    obtain ⟨z, hz, -, hrank'⟩ := h.rep b hb
    obtain rfl : y = z := Option.some.inj (hy.symm.trans ((h.survivorIndex_inj ha hb heq).trans hz))
    have hkind := h.kind y a hnode ha hrank
    have hkind' := h.kind y b hnode hb hrank'
    exact ⟨hkind.array.symm.trans hkind'.array, hkind.shape.symm.trans hkind'.shape⟩
  reachable := h.reachable
  complete := h.complete
  root_eq := h.root_eq
  root := h.root

/-- Where no object is written in place, everything that survives has an index. -/
theorem indexed_of_rep (hinline : input.config.inlineObjects = false)
    (hid : m.HasNode input.tree input.registry id)
    (hrep : m.repOf input.tree input.registry id = some y) : m.Indexed y := by
  rcases hid with ⟨harray, -⟩ | ⟨shape, hshape, -⟩
  · rw [repOf_array harray] at hrep
    exact Or.inl (h.array_keys id y hrep)
  · rw [repOf_object hshape] at hrep
    obtain ⟨t, ht, hrep⟩ := Option.bind_eq_some_iff.mp hrep
    obtain ⟨table, htable, -, rfl⟩ := ObjectTables.exists_mem_of_table? ht
    exact Or.inr ⟨table, htable, h.object_keys hinline shape _ ht id y hrep⟩

end Located

namespace Replay

/-- Where no object is written in place, there are as many positions as survivors. -/
theorem length_order_eq_liveNodes (hb : c.IsBuilt) (hinline : c.input.config.inlineObjects = false) :
    c.order.length = c.module.liveNodes := by
  have htables : ∀ table ∈ c.module.objects.tables, table.table.keys.length = table.table.size := by
    intro table htable
    obtain ⟨shape, ht, -⟩ := hb.filled.wellShaped.exists_table? htable
    exact hb.object_count hinline shape _ ht
  rw [length_order, objectCount, List.map_congr_left htables, hb.array_count]
  rfl

/-- The copy of a node: the position of what survives for it. -/
def copyOf (c : Replay) (id : NodeId) : NodeId :=
  ⟨c.order.idxOf ((c.module.repOf c.input.tree c.input.registry id).getD id)⟩

theorem copyOf_of_repOf (h : c.module.repOf c.input.tree c.input.registry id = some y) :
    c.copyOf id = ⟨c.order.idxOf y⟩ := by
  rw [copyOf, h, Option.getD_some]

/-- A copy in a replay by survivors, with no object in place. -/
structure Exact (c : Replay) (decoded : Tree) : Prop where
  built : c.IsBuilt
  valid : c.input.registry.Valid
  inline_eq : c.input.config.inlineObjects = false
  rank_eq : c.rank = c.module.survivorIndex c.input.tree c.input.registry
  copy : c.IsCopy c.order decoded

namespace Exact

variable (h : c.Exact decoded)
include h

theorem mem_order (hid : c.module.HasNode c.input.tree c.input.registry id)
    (hrep : c.module.repOf c.input.tree c.input.registry id = some y) : y ∈ c.order :=
  mem_order_of_indexed (h.built.indexed_of_rep h.inline_eq hid hrep)

theorem repOf_of_mem (hy : y ∈ c.order) : c.module.HasNode c.input.tree c.input.registry y ∧
    c.module.repOf c.input.tree c.input.registry y = some y := by
  refine h.built.repOf_of_indexed ?_
  rcases List.mem_append.mp hy with hobject | harray
  · obtain ⟨table, htable, hkey⟩ := List.mem_flatMap.mp hobject
    exact Or.inr ⟨table, htable, hkey⟩
  · exact Or.inl harray

/-- A node whose number is that of the node at a position is copied to that position. -/
theorem copyOf_eq {origin : NodeId} {i : Nat}
    (hid : c.module.HasNode c.input.tree c.input.registry id)
    (hget : c.order[i]? = some origin) (hrank : c.rank origin = c.rank id) : c.copyOf id = ⟨i⟩ := by
  obtain ⟨hnode, hrep⟩ := h.repOf_of_mem (List.mem_of_getElem? hget)
  rw [h.rank_eq] at hrank
  rw [copyOf_of_repOf ((h.built.survivorIndex_inj hnode hid hrank).symm.trans hrep)]
  obtain ⟨hi, rfl⟩ := List.getElem?_eq_some_iff.mp hget
  rw [(nodup_order h.built).idxOf_getElem]

/-- At the position of a survivor stands the survivor. -/
theorem getElem?_copyOf (hid : c.module.HasNode c.input.tree c.input.registry id)
    (hrep : c.module.repOf c.input.tree c.input.registry id = some id) :
    c.order[(c.copyOf id).index]? = some id := by
  rw [copyOf_of_repOf hrep]
  exact List.getElem?_idxOf (h.mem_order hid hrep)

/-- A copied value is the value with its node replaced by the copy. -/
theorem eq_mapNode {value value' : Value}
    (hholds : c.module.Holds c.input.tree c.input.registry value)
    (hcopies : Copies c.rank c.order value value') : value' = value.mapNode c.copyOf := by
  cases hcopies with
  | plain hnode => cases value <;> first | rfl | cases hnode
  | array hget hrank => rw [Value.mapNode, h.copyOf_eq (hholds.hasNode rfl) hget hrank]
  | object hget hrank => rw [Value.mapNode, h.copyOf_eq (hholds.hasNode rfl) hget hrank]

theorem eq_map_mapNode {values values' : List Value}
    (hholds : ∀ value ∈ values, c.module.Holds c.input.tree c.input.registry value)
    (hcopies : List.Forall₂ (Copies c.rank c.order) values values') :
    values' = values.map (·.mapNode c.copyOf) := by
  induction hcopies with
  | nil => rfl
  | @cons value value' values values' hcopy _ ih =>
      rw [List.map_cons, ← h.eq_mapNode (hholds value List.mem_cons_self) hcopy,
        ← ih fun other hother => hholds other (List.mem_cons_of_mem value hother)]

theorem copyOf_eq_iff (hx : c.module.HasNode c.input.tree c.input.registry x)
    (hy : c.module.HasNode c.input.tree c.input.registry y) :
    c.copyOf x = c.copyOf y ↔ c.module.repOf c.input.tree c.input.registry x =
      c.module.repOf c.input.tree c.input.registry y := by
  obtain ⟨a, ha, -⟩ := h.built.rep x hx
  obtain ⟨b, hb, -⟩ := h.built.rep y hy
  rw [copyOf_of_repOf ha, copyOf_of_repOf hb, ha, hb, NodeId.mk.injEq, Option.some.injEq]
  exact List.idxOf_inj (h.mem_order hx ha)

/-- The declared fields of an object that survives, one by one. -/
theorem object_copyOf (hid : c.module.HasNode c.input.tree c.input.registry id)
    (hrep : c.module.repOf c.input.tree c.input.registry id = some id) {object : Object}
    {shape : ShapeId} (hobject : c.input.tree.object? id = some object)
    (hshape : c.input.registry.lookup object.shape = some shape) :
    decoded.object? (c.copyOf id) = some ⟨object.shape, (c.input.registry.fields shape).map
      fun field => (field.name, (object.get field.name).mapNode c.copyOf)⟩ := by
  obtain ⟨node, hnode, hcopies⟩ := h.copy.node _ _ (h.getElem?_copyOf hid hrep)
  cases hcopies with
  | array harray _ => simp [Tree.array?_eq_none_of_object hobject] at harray
  | @object own values hown hvalues =>
      obtain ⟨other, hother, hlookup⟩ := Tree.shape?_eq_some_iff.mp hown
      obtain rfl : object = other := Option.some.inj (hobject.symm.trans hother)
      obtain rfl : shape = own := Option.some.inj (hshape.symm.trans hlookup)
      have hslots := Tree.slots_of_object hobject hshape
      have hmapped := h.eq_map_mapNode (h.built.complete id hid).slots hvalues
      have hlength : (c.input.registry.fields shape).length = values.length := by
        rw [hmapped, hslots, List.length_map, Tree.declaredValues, List.length_map]
      have hname : c.input.registry.shapeName shape = object.shape :=
        (Registry.lookup_eq_some hshape).2
      rw [Registry.objectOf_eq h.valid hlength, hmapped, hslots, hname, Tree.declaredValues,
        List.map_map, List.zip_map'] at hnode
      exact Tree.object?_eq_some_iff.mpr hnode

/-- Sharing is kept. -/
theorem resolved : c.module.Resolved c.input.tree c.input.registry decoded c.copyOf where
  eq_iff x y hx hy := h.copyOf_eq_iff hx hy
  root := h.eq_mapNode h.built.root h.copy.root
  array id elements hid hrep harray := by
    obtain ⟨values, hvalues, hcopies⟩ := h.copy.array (h.getElem?_copyOf hid hrep) harray
    have hholds := (h.built.complete id hid).slots
    rw [Tree.slots_of_array harray] at hholds
    rw [hvalues, h.eq_map_mapNode hholds hcopies]
  object id object shape hid hrep hobject hshape := h.object_copyOf hid hrep hobject hshape
  size := by rw [h.copy.size_eq, length_order_eq_liveNodes h.built h.inline_eq]
  onto i hi := by
    rw [h.copy.size_eq] at hi
    have hget := List.getElem?_eq_getElem hi
    obtain ⟨hnode, hrep⟩ := h.repOf_of_mem (List.mem_of_getElem? hget)
    exact ⟨_, hnode, hrep, h.copyOf_eq hnode hget rfl⟩

end Exact

/-- Where no object is written in place, a copy has the nodes of the tables only. -/
theorem IsCopy.origins_eq {origins : List NodeId} (h : c.IsCopy origins decoded)
    (hinline : c.input.config.inlineObjects = false) : origins = c.order := by
  obtain ⟨added, rfl⟩ := h.order
  suffices added = [] by rw [this, List.append_nil]
  refine List.eq_nil_iff_forall_not_mem.mpr ?_
  intro origin hmem
  obtain ⟨i, hi⟩ := List.getElem?_of_mem hmem
  have hget : (c.order ++ added)[c.order.length + i]? = some origin := by
    rw [List.getElem?_append_right (Nat.le_add_right _ _), Nat.add_sub_cancel_left, hi]
  have hplace := (h.inPlace _ origin (Nat.le_add_right _ _) hget).1
  exact Bool.false_ne_true (hinline.symm.trans hplace)

end Replay

/-- Without deduplication every registered node survives as itself. -/
theorem repOf_of_build (hr : registry.Valid) (hdedupe : config.dedupe = false)
    (h : build tree registry config = .ok m) (hid : m.HasNode tree registry id) :
    m.repOf tree registry id = some id := by
  obtain ⟨w, rfl⟩ := exists_trace_of_build hr hdedupe h
  exact w.repOf_finalized (w.hasNode_finalized.mp hid)

/-- Where no object is written in place, the decoder has one node for each node that survived,
and none besides: two nodes are read back as one if and only if they were merged, which without
deduplication no two nodes are. -/
theorem decode_resolved (hregistry : description.build = .ok registry)
    (hinline : config.inlineObjects = false)
    (hacyclic : ∀ id, tree.Reachable id → ¬ tree.Reaches id id)
    (hlength : ∀ id elements, tree.Reachable id → tree.array? id = some elements →
      elements.length < UInt32.size)
    (h : encode tree registry config = .ok bytes) :
    ∃ m decoded f, Module.build tree registry config = .ok m ∧
      decode bytes registry = .ok decoded ∧ m.Resolved tree registry decoded f ∧
      (config.dedupe = false → ∀ x y, m.HasNode tree registry x → m.HasNode tree registry y →
        (f x = f y ↔ x = y)) := by
  have hr := RegistryDescription.valid_of_build hregistry
  obtain ⟨m, hbuild, hbytes⟩ := bind_eq_ok.mp h
  obtain ⟨shapes, rank, hlocated, -⟩ := located_of_build hr hbuild
  let c : Replay := ⟨⟨tree, registry, config⟩, shapes, m.survivorIndex tree registry, m,
    bytes.length⟩
  have hb : Built c.input c.shapes c.rank c.module :=
    ⟨hlocated.bySurvivor, fun hplace => absurd (hinline.symm.trans hplace) Bool.false_ne_true⟩
  have hkeys : ∀ id ∈ m.arrays.keys, ∀ elements, tree.array? id = some elements →
      elements.length < UInt32.size := fun id hid elements =>
    hlength id elements (hlocated.reachable id (hlocated.array_of_mem_keys hid).2)
  obtain ⟨origins, decoded, hcopy, hdecode⟩ := Replay.decode_eq hb hr hkeys rfl hbytes
  -- that there is no cycle is known of the numbers of classes
  obtain ⟨found, -, hfound, hcycle⟩ := decode_of_encode hr hlength (fun _ => hacyclic) h
  rw [hcycle (Or.inl hacyclic)] at hfound
  have hok : decode bytes registry = .ok decoded := by
    cases hdecoded : decoded.findCycle with
    | none => rw [hdecode, hdecoded]
    | some node =>
        rw [hfound, hdecoded] at hdecode
        cases hdecode
  obtain rfl := hcopy.origins_eq hinline
  have hexact : c.Exact decoded := ⟨hb.toLocated, hr, hinline, rfl, hcopy⟩
  refine ⟨m, decoded, c.copyOf, hbuild, hok, hexact.resolved, ?_⟩
  intro hdedupe x y hx hy
  constructor
  · intro hcopies
    have hrep := (hexact.copyOf_eq_iff hx hy).mp hcopies
    have hrepx := repOf_of_build hr hdedupe hbuild hx
    exact Option.some.inj (hrepx.symm.trans (hrep.trans (repOf_of_build hr hdedupe hbuild hy)))
  · exact congrArg c.copyOf

/-- Of two equal pairs one is left after deduplication, and the list refers to it twice. -/
theorem copiedPair_resolved : RegistryDescription.pairs.build = .ok .pairs ∧
    ∃ bytes, encode .copiedPair .pairs { dedupe := true } = .ok bytes ∧
      ∃ m decoded f, Module.build .copiedPair .pairs { dedupe := true } = .ok m ∧
        decode bytes .pairs = .ok decoded ∧ m.Resolved .copiedPair .pairs decoded f ∧
        (EncodingConfig.dedupe { dedupe := true } = false → ∀ x y,
          m.HasNode .copiedPair .pairs x → m.HasNode .copiedPair .pairs y → (f x = f y ↔ x = y)) := by
  have hsome : (encode .copiedPair .pairs { dedupe := true }).toOption.isSome = true := by
    decide +kernel
  obtain ⟨bytes, hbytes⟩ := Option.isSome_iff_exists.mp hsome
  have h := eq_ok_of_toOption hbytes
  have hlength : ∀ id elements, Tree.copiedPair.array? id = some elements → elements.length ≤ 2 := by
    intro id elements harray
    match id, harray with
    | ⟨0⟩, harray => exact (Option.some.inj harray) ▸ Nat.le_refl 2
    | ⟨1⟩, harray | ⟨2⟩, harray | ⟨_ + 3⟩, harray => cases harray
  refine ⟨Registry.build_pairs, bytes, h, ?_⟩
  exact decode_resolved Registry.build_pairs rfl
    (fun id _ => Tree.findCycle_eq_none_iff.mp (by decide) id)
    (fun id elements _ harray => Nat.lt_of_le_of_lt (hlength id elements harray) (by decide)) h

end Module

end SyntaxPack
