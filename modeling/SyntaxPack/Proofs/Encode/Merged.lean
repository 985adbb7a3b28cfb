import SyntaxPack.Proofs.Encode.Classes
import SyntaxPack.Proofs.Encode.Walk
/-!
# SyntaxPack.Proofs.Encode.Merged

What deduplication does to the tables of a module.

A `Ranking` numbers the nodes of a module so that children come below their parents
and nodes of one number look the same. Merging never leaves a number: whatever
survives for a node has the node's own number. The classes give such a ranking; where
nothing is merged, the order of the walk does.

The invariant of merging is `MergedFrom`: compared with the module of the walk, the tables hold the
same nodes, and a node survives as one of its own number. Merging two nodes of one number keeps it
(`MergedFrom.mergeNode`), and since a class is a set of nodes of one number, so do classes and all
of deduplication (`WalkInput.Walked.dedupe`).

Nodes are looked up by their kind: an array in the one table of arrays, an object in the table of
its shape. `repOf` does both, and `Redirects` says what merging two nodes does to it, so what
follows need not tell arrays and objects apart.
-/

namespace SyntaxPack

namespace Module

variable {tree : Tree} {registry : Registry} {shapes : List ShapeId} {m m' m'' : Module}
  {rank : NodeId → Nat} {id : NodeId} {shape : ShapeId}

/-- The node that survives for a node of the tables, looked up in the table of its kind. -/
def repOf (m : Module) (tree : Tree) (registry : Registry) (id : NodeId) : Option NodeId :=
  if (tree.array? id).isSome then m.arrays.rep id
  else (tree.shape? registry id).bind fun shape => (m.objects.table? shape).bind (·.rep id)

/-- The number of nodes that survive in the tables. -/
def liveNodes (m : Module) : Nat := (m.objects.tables.map (·.table.size)).sum + m.arrays.size

/-- Nodes that have one number look the same: they have the same shape or tag of elements, and their
values are the same up to the numbers of nodes. -/
def Classed (tree : Tree) (registry : Registry) (m : Module) (rank : NodeId → Nat) : Prop :=
  ∀ a b, m.HasNode tree registry a → m.HasNode tree registry b → rank a = rank b →
    m.keyOf tree registry rank a = m.keyOf tree registry rank b

/-- A numbering of the nodes of a module: children have smaller numbers than their
parents, and nodes of the same number look the same. -/
structure Ranking (tree : Tree) (registry : Registry) (m : Module) (rank : NodeId → Nat) :
    Prop where
  lt_size : ∀ id, m.HasNode tree registry id → rank id < tree.size
  child_lt : ∀ id, m.HasNode tree registry id → ∀ value ∈ tree.slots registry id, ∀ child,
    value.node? = some child → rank child < rank id
  alike : m.Classed tree registry rank

theorem repOf_array (h : (tree.array? id).isSome = true) :
    m.repOf tree registry id = m.arrays.rep id := by
  rw [repOf, if_pos h]

theorem repOf_object (h : tree.shape? registry id = some shape) :
    m.repOf tree registry id = (m.objects.table? shape).bind (·.rep id) := by
  obtain ⟨object, hobject, -⟩ := Tree.shape?_eq_some_iff.mp h
  rw [repOf, Tree.array?_eq_none_of_object hobject, h]
  rfl

/-- An array survives as an array, and an object as one in the same table. If tables are shared,
that may be one of another shape as far as the tables go. -/
theorem Filled.repOf_cases (hf : Filled tree registry shapes m)
    {y : NodeId}
    (h : m.repOf tree registry id = some y) :
    ((tree.array? id).isSome = true ∧ (tree.array? y).isSome = true) ∨
      ∃ shape own, tree.shape? registry id = some shape ∧ tree.shape? registry y = some own ∧
        m.objects.Together shape own := by
  by_cases harray : (tree.array? id).isSome = true
  · rw [repOf_array harray] at h
    exact Or.inl ⟨harray, hf.array_of_mem y (hf.arrays.mem_of_rep h).2⟩
  · rw [repOf, if_neg harray] at h
    obtain ⟨shape, hshape, h₁⟩ := Option.bind_eq_some_iff.mp h
    obtain ⟨t, ht, hrep⟩ := Option.bind_eq_some_iff.mp h₁
    obtain ⟨own, hown, htogether⟩ :=
      hf.shape_of_mem shape t ht y ((hf.objects shape t ht).mem_of_rep hrep).2
    exact Or.inr ⟨shape, own, hshape, hown, htogether⟩

/-- Only an array survives for an array. -/
theorem Filled.isSome_array?_of_repOf (hf : Filled tree registry shapes m) {y : NodeId}
    (h : m.repOf tree registry id = some y) : (tree.array? y).isSome = (tree.array? id).isSome := by
  rcases hf.repOf_cases h with ⟨hid, hy⟩ | ⟨shape, own, hid, hy, -⟩
  · rw [hid, hy]
  · rw [Tree.array?_eq_none_of_shape hid, Tree.array?_eq_none_of_shape hy]

/-- An object survives as one in its own table. -/
theorem Filled.together_of_repOf (hf : Filled tree registry shapes m) {y : NodeId} {own : ShapeId}
    (h : m.repOf tree registry id = some y) (hid : tree.shape? registry id = some shape)
    (hy : tree.shape? registry y = some own) : m.objects.Together shape own := by
  rcases hf.repOf_cases h with ⟨harray, -⟩ | ⟨shape', own', hid', hy', htogether⟩
  · simp [Tree.array?_eq_none_of_shape hid] at harray
  · obtain rfl := Option.some.inj (hid.symm.trans hid')
    obtain rfl := Option.some.inj (hy.symm.trans hy')
    exact htogether

/-- What survives survives as itself. -/
theorem Filled.repOf_repOf (hf : Filled tree registry shapes m) {y : NodeId}
    (h : m.repOf tree registry id = some y) : m.repOf tree registry y = some y := by
  rw [repOf] at h
  split at h
  · rw [repOf_array (hf.array_of_mem y (hf.arrays.mem_of_rep h).2)]
    exact hf.arrays.rep_rep h
  · obtain ⟨shape, hshape, h₁⟩ := Option.bind_eq_some_iff.mp h
    obtain ⟨t, ht, hrep⟩ := Option.bind_eq_some_iff.mp h₁
    have hv := hf.objects shape t ht
    obtain ⟨own, hown, htogether⟩ := hf.shape_of_mem shape t ht y (hv.mem_of_rep hrep).2
    rw [repOf_object hown, ← ObjectTables.table?_congr htogether, ht, Option.bind_some,
      hv.rep_rep hrep]

/-! ### Rankings

There are two: positions in the list of classes, where a key is made of the numbers of children and
so comes after them, and positions in the order in which the walk leaves nodes. The second needs a
tree without cycles, the first is made by classifying and needs nothing. -/

/-- The numbers of the classes are a ranking. -/
theorem Classified.ranking {postOrder : List NodeId} {classes : NodeClasses}
    (h : Classified m tree registry postOrder classes) (hnodup : postOrder.Nodup)
    (hmem : ∀ id, id ∈ postOrder ↔ m.HasNode tree registry id) :
    m.Ranking tree registry classes.number := by
  have hclass : ∀ id, m.HasNode tree registry id → ∃ i, classes.classOf? id = some i := fun id hid =>
    Option.isSome_iff_exists.mp ((h.isSome_iff id).mpr ((hmem id).mpr hid))
  have hsize := Tree.length_le_size hnodup fun id hid => by
    obtain ⟨node, hnode⟩ := ((hmem id).mp hid).exists_node
    exact Tree.lt_size_of_node? hnode
  refine ⟨fun id hid => ?_, fun id hid value hvalue child hchild => ?_, fun a b ha hb heq => ?_⟩
  · obtain ⟨i, hi⟩ := hclass id hid
    have hlt := NodeClasses.classOf?_lt hi
    have hle := h.length_le
    rw [NodeClasses.number, hi, Option.getD_some]
    simp only [NodeClasses.keys, List.length_map] at hlt
    omega
  · obtain ⟨i, hi⟩ := hclass id hid
    have hkey := h.keyOf_eq id i hi
    obtain ⟨key, hget⟩ : ∃ key, classes.keys[i]? = some key :=
      ⟨_, List.getElem?_eq_getElem (NodeClasses.classOf?_lt hi)⟩
    rw [hget] at hkey
    have hnumber : classes.number id = i := by rw [NodeClasses.number, hi, Option.getD_some]
    rw [hnumber]
    refine h.number_lt i key hget (atomOf classes.number value) ?_ _ ?_
    · rw [atoms_of_keyOf hkey]
      exact List.mem_map_of_mem hvalue
    · rw [number?_atomOf, hchild, Option.map_some]
  · obtain ⟨i, hi⟩ := hclass a ha
    obtain ⟨j, hj⟩ := hclass b hb
    obtain rfl : i = j := by simpa [NodeClasses.number, hi, hj] using heq
    rw [h.keyOf_eq a i hi, h.keyOf_eq b i hj]

/-- Without cycles, the order in which the walk finishes nodes is a ranking. -/
theorem WalkInput.Walked.ranking {input : WalkInput} {postOrder : List NodeId}
    (h : input.Walked m postOrder)
    (hacyclic : ∀ id, input.tree.InUse input.registry id → ¬ input.tree.Above input.registry id id) :
    m.Ranking input.tree input.registry (postOrder.idxOf ·) := by
  have hsize := Tree.length_le_size h.nodup fun id hid => by
    obtain ⟨node, hnode⟩ := ((h.mem_iff id).mp hid).exists_node
    exact Tree.lt_size_of_node? hnode
  refine ⟨fun id hid => ?_, fun id hid value hvalue child hchild => ?_, fun a b ha hb heq => ?_⟩
  · exact Nat.lt_of_lt_of_le (List.idxOf_lt_length_of_mem ((h.mem_iff id).mpr hid)) hsize
  · have hid := (h.mem_iff id).mpr hid
    obtain ⟨after, before, hsplit⟩ := List.append_of_mem hid
    have hreverse : postOrder.reverse = before.reverse ++ id :: after.reverse := by
      simp [hsplit]
    -- A child of a node is left before it, unless the node is on a cycle.
    rcases h.ordered _ _ _ hreverse value hvalue child hchild with hafter | hcycle
    · have hafter : child ∈ after := List.mem_reverse.mp hafter
      have hnot : id ∉ after := by
        have hnodup := h.nodup
        rw [hsplit, List.nodup_append] at hnodup
        exact fun hmem => hnodup.2.2 id hmem id List.mem_cons_self rfl
      rw [hsplit, List.idxOf_append_of_mem hafter, List.idxOf_append_of_notMem hnot]
      have := List.idxOf_lt_length_of_mem hafter
      omega
    · have hstep : input.tree.HasChild input.registry id child := ⟨value, hvalue, hchild⟩
      exact absurd ((Relation.TransGen.single hstep).trans hcycle) (hacyclic id (h.inUse id hid))
  · have ha := (h.mem_iff a).mpr ha
    obtain rfl : a = b := (List.idxOf_inj ha).mp heq
    rfl

/-! ### Merging

All later states are compared with the first one, before anything was merged, and never with one
another. -/

/-- A module whose tables hold the same nodes as those of `m`, in which every node survives as one
of the same number. Tags of elements and the root are those of `m`. -/
structure MergedFrom (tree : Tree) (registry : Registry) (shapes : List ShapeId)
    (rank : NodeId → Nat) (m m' : Module) : Prop where
  filled : Filled tree registry shapes m'
  building : m'.Building
  grows : Extends m m'
  hasNode_iff : ∀ id, m'.HasNode tree registry id ↔ m.HasNode tree registry id
  elementTags : m'.elementTags = m.elementTags
  root : m'.root = m.root
  rep : ∀ id, m.HasNode tree registry id → ∃ y, m'.repOf tree registry id = some y ∧
    m.HasNode tree registry y ∧ rank y = rank id

/-- While nothing is merged, every node survives as itself. -/
theorem mergedFrom_refl (hf : Filled tree registry shapes m) (hb : m.Building) (hu : m.Unmerged) :
    MergedFrom tree registry shapes rank m m := by
  refine ⟨hf, hb, .refl m, fun _ => Iff.rfl, rfl, rfl, fun id hid => ⟨id, ?_, hid, rfl⟩⟩
  rcases hid with ⟨harray, hmem⟩ | ⟨shape, hshape, t, ht, hmem⟩
  · rw [repOf_array harray, hu.arrays id hmem]
  · rw [repOf_object hshape, ht, Option.bind_some, hu.objects shape t ht id hmem]

/-! ### Merging two nodes

The two kinds are merged in tables of their own, and each has to be shown not to change what
survives for the other. -/

variable {source target : NodeId}

/-- What survived for the one node is replaced by what survives for the other. -/
def Redirects (tree : Tree) (registry : Registry) (m m' : Module) (source target : NodeId) : Prop :=
  ∃ a b, m.repOf tree registry source = some a ∧ m.repOf tree registry target = some b ∧
    ∀ id, m'.repOf tree registry id =
      if m.repOf tree registry id = some a then some b else m.repOf tree registry id

/-- Merging nodes of one number keeps every node within its number. -/
theorem MergedFrom.rep_of_redirects (h : MergedFrom tree registry shapes rank m m')
    (hredirects : Redirects tree registry m' m'' source target)
    (hsource : m.HasNode tree registry source) (htarget : m.HasNode tree registry target)
    (hrank : rank source = rank target) (hid : m.HasNode tree registry id) :
    ∃ y, m''.repOf tree registry id = some y ∧ m.HasNode tree registry y ∧ rank y = rank id := by
  obtain ⟨a, b, ha, hb, hrep⟩ := hredirects
  obtain ⟨y, hy, hynode, hyrank⟩ := h.rep id hid
  rw [hrep, hy]
  -- Only what survived as the source has changed, and the target has the same number.
  by_cases heq : y = a
  · subst heq
    obtain ⟨_, hy', -, hsourceRank⟩ := h.rep source hsource
    obtain rfl := Option.some.inj (ha.symm.trans hy')
    obtain ⟨_, hb', hbnode, htargetRank⟩ := h.rep target htarget
    obtain rfl := Option.some.inj (hb.symm.trans hb')
    exact ⟨b, if_pos rfl, hbnode, by rw [htargetRank, ← hrank, ← hsourceRank, hyrank]⟩
  · exact ⟨y, if_neg (by simpa using heq), hynode, hyrank⟩

/-- Merging two arrays redirects in the table of arrays, and leaves objects alone. -/
theorem Filled.redirects_arrays {arrays : UniqueTable NodeId} (hf : Filled tree registry shapes m)
    (hsource : (tree.array? source).isSome = true) (htarget : (tree.array? target).isSome = true)
    (hm : m.arrays.Merged source target arrays) :
    Redirects tree registry m { m with arrays := arrays } source target := by
  obtain ⟨a, b, ha, hb, -, hrep⟩ := hm.rep
  rw [← repOf_array hsource] at ha
  rw [← repOf_array htarget] at hb
  refine ⟨a, b, ha, hb, fun id => ?_⟩
  by_cases harray : (tree.array? id).isSome = true
  · rw [repOf_array harray, repOf_array harray]
    exact hrep id
  · -- no array survives for an object
    have hother : m.repOf tree registry id ≠ some a := fun heq =>
      harray ((hf.isSome_array?_of_repOf heq).symm.trans
        ((hf.isSome_array?_of_repOf ha).trans hsource))
    rw [if_neg hother, repOf, if_neg harray, repOf, if_neg harray]

/-- Merging two arrays of one number keeps every node within its number. -/
theorem MergedFrom.dedupeArray (h : MergedFrom tree registry shapes rank m m')
    (hsource : (tree.array? source).isSome = true) (htarget : (tree.array? target).isSome = true)
    (hsourceNode : m.HasNode tree registry source) (htargetNode : m.HasNode tree registry target)
    (hrank : rank source = rank target) (hrun : m'.dedupeArray source target = .ok m'') :
    MergedFrom tree registry shapes rank m m'' ∧ Redirects tree registry m' m'' source target := by
  obtain ⟨arrays, harrays, h₁⟩ := bind_eq_ok.mp hrun
  obtain rfl := Except.ok.inj h₁
  obtain ⟨horder, hm⟩ := h.filled.arrays.merged harrays
  have hredirects := h.filled.redirects_arrays hsource htarget hm
  have hmem : ∀ x, x ∈ arrays.names ↔ x ∈ m'.arrays.names := fun x => by rw [hm.names]
  refine ⟨⟨{ h.filled with arrays := hm.valid, array_of_mem := fun x hx =>
      h.filled.array_of_mem x ((hmem x).mp hx) },
    { h.building with arrays := hm.order.trans horder },
    { h.grows with arrays := fun x hx => (hmem x).mpr (h.grows.arrays x hx) },
    fun x => ?_, h.elementTags, h.root,
    fun _ => h.rep_of_redirects hredirects hsourceNode htargetNode hrank⟩, hredirects⟩
  rw [← h.hasNode_iff, HasNode, HasNode, hmem]
  exact Iff.rfl

section Objects

variable {objects : ObjectTables} {t t' : UniqueTable NodeId} {other : ShapeId}

/-- Merging two objects merges the table of their shape, which is there if one of them is in it. -/
theorem Filled.dedupeObject_eq_ok (hf : Filled tree registry shapes m)
    (hsource : tree.shape? registry source = some shape) (hnode : m.HasNode tree registry source)
    (h : m.dedupeObject registry shape source target = .ok m') :
    ∃ objects t t', m' = { m with objects := objects } ∧
      m.objects.update registry shape (·.dedupe source target) = .ok objects ∧
      m.objects.table? shape = some t ∧ t.order = none ∧ t.Merged source target t' ∧
      m.objects.Updated shape t' objects := by
  obtain ⟨objects, hobjects, h₁⟩ := bind_eq_ok.mp h
  obtain ⟨t', ht', hu⟩ := hf.wellShaped.updated hobjects
  obtain ⟨t, ht, -⟩ := (hasNode_object_iff hsource).mp hnode
  rw [ObjectTables.tableOrEmpty, ht, Option.getD_some] at ht'
  obtain ⟨horder, hm⟩ := (hf.objects shape t ht).merged ht'
  exact ⟨objects, t, t', (Except.ok.inj h₁).symm, hobjects, ht, horder, hm, hu⟩

variable (ht : m.objects.table? shape = some t) (hm : t.Merged source target t')
  (hu : m.objects.Updated shape t' objects)
include ht hm hu

/-- Merging in the table of a shape changes no names. -/
theorem names_of_merged (other : ShapeId) :
    (objects.table? other).map Table.names = (m.objects.table? other).map Table.names := by
  by_cases htogether : m.objects.Together shape other
  · rw [hu.together other htogether, ← ObjectTables.table?_congr htogether, ht, Option.map_some,
      Option.map_some, hm.names]
  · rw [hu.apart other htogether]

theorem hasObject_of_merged :
    HasObject { m with objects := objects } other id ↔ m.HasObject other id := by
  have hsome : ∀ table : Option (UniqueTable NodeId), (∃ t, table = some t ∧ id ∈ t.names) ↔
      ∃ names, table.map Table.names = some names ∧ id ∈ names := fun table => by
    cases table <;> simp
  rw [HasObject, HasObject, hsome, hsome, names_of_merged ht hm hu other]

/-- Merging in the table of a shape keeps the tables filled: they hold the same nodes as before. -/
theorem Filled.mergedObjects (hf : Filled tree registry shapes m) :
    Filled tree registry shapes { m with objects := objects } := by
  refine { hf with
    wellShaped := hu.wellShaped
    objects := hu.forall_table hm.valid hf.objects
    shape_of_mem := fun other u hother x hx => ?_
    nonempty := fun hp => hu.forall_table ?_ (hf.nonempty (hu.partitioned ▸ hp))
    mem_shapes := fun own x hx hhas =>
      hf.mem_shapes own x hx ((hasObject_of_merged ht hm hu).mp hhas) }
  · obtain ⟨v, hv, hxv⟩ := (hasObject_of_merged ht hm hu).mp ⟨u, hother, hx⟩
    obtain ⟨own, hown, htogether⟩ := hf.shape_of_mem other v hv x hxv
    exact ⟨own, hown, hu.together_iff.mpr htogether⟩
  · rw [hm.names]
    exact hf.nonempty (hu.partitioned ▸ hp) shape t ht

/-- Merging two objects of a shape redirects in the table of the shape, and leaves arrays and the
other tables alone. -/
theorem Filled.redirects_objects (hf : Filled tree registry shapes m)
    (hsource : tree.shape? registry source = some shape)
    (htarget : tree.shape? registry target = some shape) :
    Redirects tree registry m { m with objects := objects } source target := by
  obtain ⟨a, b, ha, hb, -, hrep⟩ := hm.rep
  have hown := (hf.objects shape t ht).mem_of_rep ha
  obtain ⟨own, hshape, htable⟩ := hf.shape_of_mem shape t ht a hown.2
  refine ⟨a, b, ?_, ?_, fun id => ?_⟩
  · rwa [repOf_object hsource, ht, Option.bind_some]
  · rwa [repOf_object htarget, ht, Option.bind_some]
  · -- what survives as the source is in the table of the source
    by_cases harray : (tree.array? id).isSome = true
    · have hother : m.repOf tree registry id ≠ some a := fun heq => by
        have hsame := hf.isSome_array?_of_repOf heq
        rw [harray, Tree.array?_eq_none_of_shape hshape] at hsame
        simp at hsame
      rw [if_neg hother, repOf_array harray, repOf_array harray]
    · cases hid : tree.shape? registry id with
      | none => simp [repOf, harray, hid]
      | some other =>
          -- Shapes that share the table see the merge, others do not.
          by_cases htogether : m.objects.Together shape other
          · rw [repOf_object hid, repOf_object hid, hu.together other htogether,
              ← ObjectTables.table?_congr htogether, ht]
            exact hrep id
          · have hother : m.repOf tree registry id ≠ some a := fun heq =>
              htogether (htable.trans (hf.together_of_repOf heq hid hshape).symm)
            rw [if_neg hother, repOf_object hid, repOf_object hid, hu.apart other htogether]

end Objects

/-- Merging two objects of a shape and a number keeps every node within its number. -/
theorem MergedFrom.dedupeObject (h : MergedFrom tree registry shapes rank m m')
    (hsource : tree.shape? registry source = some shape)
    (htarget : tree.shape? registry target = some shape)
    (hsourceNode : m.HasNode tree registry source) (htargetNode : m.HasNode tree registry target)
    (hrank : rank source = rank target)
    (hrun : m'.dedupeObject registry shape source target = .ok m'') :
    MergedFrom tree registry shapes rank m m'' ∧ Redirects tree registry m' m'' source target := by
  obtain ⟨objects, t, t', rfl, -, ht, horder, hm, hu⟩ :=
    h.filled.dedupeObject_eq_ok hsource ((h.hasNode_iff source).mpr hsourceNode) hrun
  have hredirects := h.filled.redirects_objects ht hm hu hsource htarget
  have hobject : ∀ {other x}, HasObject { m' with objects := objects } other x ↔ m'.HasObject other x :=
    hasObject_of_merged ht hm hu
  refine ⟨⟨h.filled.mergedObjects ht hm hu,
    { h.building with objects := hu.forall_table (hm.order.trans horder) h.building.objects },
    { h.grows with objects := fun other x hx => hobject.mpr (h.grows.objects other x hx),
                   partitioned := hu.partitioned.trans h.grows.partitioned },
    fun x => ?_, h.elementTags, h.root,
    fun _ => h.rep_of_redirects hredirects hsourceNode htargetNode hrank⟩, hredirects⟩
  rw [← h.hasNode_iff]
  simp only [HasNode, hobject]

/-- The key of a node tells its kind and its shape. -/
theorem kind_of_keyOf {key : ClassKey} (h : m.keyOf tree registry rank id = some key) :
    match key.shape? with
    | some shape => tree.shape? registry id = some shape
    | none => (tree.array? id).isSome = true := by
  simp only [keyOf] at h
  split at h
  · rename_i elements hnode
    obtain ⟨tag, -, rfl⟩ := Option.map_eq_some_iff.mp h
    simp [ClassKey.shape?, Tree.array?_eq_some_iff.mpr hnode]
  · rename_i object hnode
    obtain ⟨own, hown, rfl⟩ := Option.map_eq_some_iff.mp h
    exact Tree.shape?_eq_some_iff.mpr ⟨object, Tree.object?_eq_some_iff.mpr hnode, hown⟩
  · simp at h

theorem mergeMember_eq_ok {own : Option ShapeId} {state state' : Nat × Module} :
    mergeMember registry own target state source = .ok state' ↔
      ∃ k, mergeNode registry own state.2 source target = .ok k ∧ state' = (state.1 + 1, k) := by
  rw [mergeMember, bind_eq_ok]
  exact exists_congr fun k => and_congr_right fun _ => by rw [Except.ok.injEq, eq_comm]

/-- What merging one member of a class into another one keeps, merging the class keeps. Members are
merged into the first one, but nothing here depends on which it is. -/
theorem mergeClass_induction {motive : Nat × Module → Prop} {c : NodeClass} {minUses : Nat}
    {state state' : Nat × Module} (hrun : Module.mergeClass registry minUses state c = .ok state')
    (start : motive state)
    (step : ∀ state k source target, source ∈ c.members → target ∈ c.members → motive state →
      mergeNode registry c.key.shape? state.2 source target = .ok k → motive (state.1 + 1, k)) :
    motive state' := by
  simp only [Module.mergeClass] at hrun
  split at hrun
  · rename_i target source sources hmembers
    have hmem : ∀ x ∈ target :: source :: sources, x ∈ c.members := fun x hx =>
      List.mem_reverse.mp (hmembers ▸ hx)
    split at hrun
    · exact Except.ok.inj hrun ▸ start
    · refine foldlM_induction (motive := fun _ state => motive state) hrun start
        fun done x rest b state hsplit hb hstep => ?_
      obtain ⟨k, hk, rfl⟩ := mergeMember_eq_ok.mp hstep
      exact step b k x target (hmem x (List.mem_cons_of_mem _ (by rw [hsplit]; simp)))
        (hmem target List.mem_cons_self) hb hk
  · exact Except.ok.inj hrun ▸ start

/-- Merging two nodes leaves the tags alone. -/
theorem tags_of_mergeNode {own : Option ShapeId}
    (hrun : Module.mergeNode registry own m source target = .ok m') : m'.tags = m.tags := by
  cases own with
  | some shape =>
      obtain ⟨objects, -, h₁⟩ := bind_eq_ok.mp hrun
      rw [← Except.ok.inj h₁]
  | none =>
      obtain ⟨arrays, -, h₁⟩ := bind_eq_ok.mp hrun
      rw [← Except.ok.inj h₁]

/-- Deduplication merges objects and arrays, but no tags. -/
theorem tags_of_dedupe {postOrder : List NodeId} {minUses merged : Nat}
    (hrun : m.dedupe tree registry postOrder minUses = .ok (merged, m')) : m'.tags = m.tags := by
  obtain ⟨classes, -, h₁⟩ := bind_eq_ok.mp hrun
  rw [mapError_eq_ok] at h₁
  refine foldlM_induction (motive := fun _ state => state.2.tags = m.tags) h₁ rfl
    fun done c rest state state' _ hstate hclass => ?_
  refine mergeClass_induction (motive := fun state => state.2.tags = m.tags) hclass hstate
    fun state k source target _ _ hsame hmerge => ?_
  exact (tags_of_mergeNode hmerge).trans hsame

/-- Merging two nodes of one key and one number. The key tells their kind, so both are merged in the
same table. -/
theorem MergedFrom.mergeNode {key : ClassKey} (h : MergedFrom tree registry shapes rank m m')
    (hsource : m.keyOf tree registry rank source = some key)
    (htarget : m.keyOf tree registry rank target = some key)
    (hsourceNode : m.HasNode tree registry source) (htargetNode : m.HasNode tree registry target)
    (hrank : rank source = rank target)
    (hrun : Module.mergeNode registry key.shape? m' source target = .ok m'') :
    MergedFrom tree registry shapes rank m m'' ∧ Redirects tree registry m' m'' source target := by
  have hkind := kind_of_keyOf hsource
  have hkind' := kind_of_keyOf htarget
  cases hshape : key.shape? with
  | some shape =>
      simp only [hshape] at hkind hkind' hrun
      exact h.dedupeObject hkind hkind' hsourceNode htargetNode hrank hrun
  | none =>
      simp only [hshape] at hkind hkind' hrun
      exact h.dedupeArray hkind hkind' hsourceNode htargetNode hrank hrun

/-- Deduplication keeps every node within its class. -/
theorem WalkInput.Walked.dedupe {input : WalkInput} {postOrder : List NodeId}
    (h : input.Walked m postOrder) {minUses : Nat} {result : Nat × Module}
    (hrun : m.dedupe input.tree input.registry postOrder minUses = .ok result) :
    ∃ shapes rank, m.Ranking input.tree input.registry rank ∧
      MergedFrom input.tree input.registry shapes rank m result.2 := by
  obtain ⟨classes, hclasses, h₁⟩ := bind_eq_ok.mp hrun
  rw [mapError_eq_ok] at h₁
  have hc := classified_of_classify h.nodup hclasses
  obtain ⟨shapes, hf⟩ := h.gathered.filled
  refine ⟨shapes, classes.number, hc.ranking h.nodup h.mem_iff, ?_⟩
  refine foldlM_induction
    (motive := fun _ state =>
      MergedFrom input.tree input.registry shapes classes.number m state.2) h₁
    (mergedFrom_refl hf h.gathered.building h.gathered.unmerged)
    fun done c rest b state hsplit hb hstep => ?_
  -- A class has one position, which is the number of all its members.
  obtain ⟨i, hi⟩ := List.getElem?_of_mem (show c ∈ classes by rw [hsplit]; simp)
  have hclass : ∀ x ∈ c.members, classes.classOf? x = some i := fun x hx =>
    hc.classOf?_eq i c x hi hx
  have hkey : ∀ x ∈ c.members, m.keyOf input.tree input.registry classes.number x = some c.key := by
    intro x hx
    rw [hc.keyOf_eq x i (hclass x hx), NodeClasses.keys, List.getElem?_map, hi, Option.map_some]
  have hnode : ∀ x ∈ c.members, m.HasNode input.tree input.registry x := fun x hx =>
    (h.mem_iff x).mp ((hc.isSome_iff x).mp (by simp [hclass x hx]))
  refine mergeClass_induction
    (motive := fun state => MergedFrom input.tree input.registry shapes classes.number m state.2)
    hstep hb fun state k source target hs ht hstate hmerge => ?_
  refine (hstate.mergeNode (hkey source hs) (hkey target ht) (hnode source hs) (hnode target ht) ?_
    hmerge).1
  rw [NodeClasses.number, NodeClasses.number, hclass source hs, hclass target ht]

end Module

end SyntaxPack
