import SyntaxPack.Proofs.Encode.Trace
import SyntaxPack.Proofs.RoundTrip.Equal
/-!
# SyntaxPack.Proofs.RoundTrip.Reencoded

A decoded module is encoded to the same bytes.

Without deduplication every node is written for itself. So the origin of a decoded node is
the very node that it was written for, and the decoded tree looks like the encoded one.
What is not preserved is how often nodes are used: an object in place becomes one node for
every slot that it was written in. Each of these has a single use, so all of them
are written in place again, while a node that has an index has one copy only, with no
fewer uses than the node itself (`Trace.kept_iff`). This is all that the order of the tables depends
on, unless indices go by the number of uses and objects are written in place at once.

The bytes of two walks agree if their modules mirror each other (`Mirrors`), so the work is in
showing that the module of the copy mirrors that of the tree. This goes in three steps:

* a copy, as the decoder makes it, corresponds to the tree by the origins of its nodes
  (`IsCopy.corresponding`), and its walk comes to an end;
* nodes of the tables have one copy each (`IsCopy.copy_unique`), the others one for every slot, and
  a walk of the copy meets a node no more often than the nodes refer to it
  (`IsCopy.count_le_uses`);
* so strings, arrays and objects of both walks are listed in the same order (`Rewalked.mirrors`).
-/

namespace SyntaxPack

/-- A list that has the same pair twice: one node, met two times. -/
def Tree.sharedPair : Tree where
  nodes := #[.object ⟨"Pair", [("left", .number ⟨0x3ff0000000000000⟩), ("next", .null)]⟩,
    .array [.object ⟨0⟩, .object ⟨0⟩]]
  root := .array ⟨1⟩

/-- The same list with two pairs: what decoding makes of it if the pair is written in place. -/
def Tree.copiedPair : Tree where
  nodes := #[.array [.object ⟨1⟩, .object ⟨2⟩],
    .object ⟨"Pair", [("left", .number ⟨0x3ff0000000000000⟩), ("next", .null)]⟩,
    .object ⟨"Pair", [("left", .number ⟨0x3ff0000000000000⟩), ("next", .null)]⟩]
  root := .array ⟨0⟩

namespace Module

/-! ### Origins

Decoding returns a list of origins along with the nodes: the node at a position was written for the
one that stands there in the list. -/

/-- The node at a position was written for another one. As a relation it leads from the nodes that
were encoded to those that were decoded. -/
def OriginOf (origins : List NodeId) (x y : NodeId) : Prop := origins[y.index]? = some x

theorem OriginOf.unique {origins : List NodeId} {x x' y : NodeId} (h : OriginOf origins x y)
    (h' : OriginOf origins x' y) : x = x' :=
  Option.some.inj (h.symm.trans h')

namespace Replay

variable {c : Replay} {origins : List NodeId} {t : Tree} {x y y' : NodeId} {value value' : Value}

/-- Different nodes have different numbers. Without deduplication they do, for numbers are
positions. -/
def Separates (c : Replay) : Prop :=
  ∀ x y, c.module.HasNode c.input.tree c.input.registry x → c.rank x = c.rank y → x = y

/-- Copies of values refer to nodes that were written for the nodes of the values, and not just for
nodes of the same class. -/
theorem alike_of_separate (hinj : c.Separates)
    (horigins : ∀ id ∈ origins, c.module.HasNode c.input.tree c.input.registry id)
    (h : Copies c.rank origins value value') : Tree.Alike (OriginOf origins) value value' := by
  cases h with
  | plain hnode => exact .plain hnode
  | array hget hrank =>
      obtain rfl := hinj _ _ (horigins _ (List.mem_of_getElem? hget)) hrank
      exact .array hget
  | object hget hrank =>
      obtain rfl := hinj _ _ (horigins _ (List.mem_of_getElem? hget)) hrank
      exact .object hget

/-! ### The order of the nodes

Nodes of the tables come first, in the order of the tables, and nodes that were read in place after
all of them. So the position of a node tells the two kinds apart. -/

/-- Every node of the tables stands at one position: tables have no repetitions, tables of different
shapes have no object in common, and no object is an array. -/
theorem nodup_order (hb : c.IsBuilt) : c.order.Nodup := by
  have hw := hb.filled.wellShaped
  refine List.nodup_append.mpr ⟨?_, hb.arrays.keys_nodup, fun x hx y hy heq => ?_⟩
  · refine List.nodup_flatMap.mpr ⟨fun table htable => ?_, ?_⟩
    · obtain ⟨shape, ht, -⟩ := hw.exists_table? htable
      exact (hb.objects shape _ ht).keys_nodup
    · cases hp : c.module.objects.partitioned with
      | false =>
          obtain ⟨table, htables⟩ := hw.shared hp
          rw [htables]
          exact List.pairwise_singleton _ _
      | true =>
          refine (List.pairwise_map.mp (hw.nodup hp)).imp_of_mem fun {table table'} htable htable' hne => ?_
          -- an object that is in both tables has both shapes
          intro x hx hx'
          obtain ⟨own, hown, -, hshape⟩ := object_of_table hb htable hx
          obtain ⟨own', hown', -, hshape'⟩ := object_of_table hb htable' hx'
          obtain rfl := Option.some.inj (hown.symm.trans hown')
          refine hne ?_
          cases hs : table.shape with
          | none => exact absurd hs (hw.shape_ne hp table htable)
          | some shape =>
              cases hs' : table'.shape with
              | none => exact absurd hs' (hw.shape_ne hp table' htable')
              | some shape' => simp_all
  · obtain ⟨table, htable, hkey⟩ := List.mem_flatMap.mp hx
    obtain ⟨own, hown, -⟩ := object_of_table hb htable hkey
    obtain ⟨object, hobject, -⟩ := Tree.shape?_eq_some_iff.mp hown
    have harray := (hb.array_of_mem_keys (heq ▸ hy)).1
    simp [Tree.array?_eq_none_of_object hobject] at harray

theorem mem_order_of_indexed (h : c.module.Indexed x) : x ∈ c.order := by
  rcases h with harray | ⟨table, htable, hkey⟩
  · exact List.mem_append_right _ harray
  · exact List.mem_append_left _ (List.mem_flatMap.mpr ⟨table, htable, hkey⟩)

namespace IsCopy

variable (h : c.IsCopy origins t)
include h

/-- A node of the tables has one copy, the one at its own position. A node that was read in place
was not in the tables, so it cannot be another one. -/
theorem copy_unique (hb : c.IsBuilt) (hx : x ∈ c.order) (hy : OriginOf origins x y)
    (hy' : OriginOf origins x y') : y = y' := by
  have hplace : ∀ {y : NodeId}, OriginOf origins x y → c.order[y.index]? = some x := by
    intro y hy
    rcases Nat.lt_or_ge y.index c.order.length with hlt | hge
    · obtain ⟨more, rfl⟩ := h.order
      rwa [OriginOf, List.getElem?_append_left hlt] at hy
    · exact absurd hx (h.inPlace y.index x hge hy).2
  obtain ⟨hi, hxi⟩ := List.getElem?_eq_some_iff.mp (hplace hy)
  obtain ⟨hj, hxj⟩ := List.getElem?_eq_some_iff.mp (hplace hy')
  have hindex := (nodup_order hb).getElem_inj_iff.mp (hxi.trans hxj.symm)
  exact congrArg NodeId.mk hindex

/-- The copy of a node that is in no table stands behind the tables. -/
theorem length_le_of_notMem (hx : x ∉ c.order) (hy : OriginOf origins x y) :
    c.order.length ≤ y.index := by
  by_contra hlt
  obtain ⟨more, rfl⟩ := h.order
  rw [OriginOf, List.getElem?_append_left (Nat.lt_of_not_le hlt)] at hy
  exact hx (List.mem_of_getElem? hy)

/-- Where different nodes have different numbers, the copy looks like the tree: arrays are copied to
arrays of copies, objects to objects of the same shape. -/
theorem corresponding (hr : c.input.registry.Valid) (hinj : c.Separates) :
    Tree.Corresponding c.input.tree t c.input.registry (OriginOf origins) := by
  intro x y hxy
  have hvalues : ∀ {values values' : List Value}, List.Forall₂ (Copies c.rank origins) values values' →
      List.Forall₂ (Tree.Alike (OriginOf origins)) values values' := fun hall =>
    hall.imp fun _ _ hcopies => alike_of_separate hinj h.hasNode hcopies
  rcases h.hasNode x (List.mem_of_getElem? hxy) with ⟨harray, -⟩ | ⟨shape, hshape, -⟩
  · obtain ⟨elements, helements⟩ := Option.isSome_iff_exists.mp harray
    obtain ⟨values, hy, hcopies⟩ := h.array hxy helements
    exact .array helements hy (hvalues hcopies)
  · obtain ⟨hy, -, hcopies⟩ := h.object hr hxy hshape
    exact .object hshape hy (hvalues hcopies)

theorem alike_root (hinj : c.Separates) :
    Tree.Alike (OriginOf origins) c.input.tree.root t.root :=
  alike_of_separate hinj h.hasNode h.root

/-- Whatever the root of a copy refers to was written for some node, by induction on the path. -/
theorem exists_origin (hr : c.input.registry.Valid) (hy : t.Reachable y) :
    ∃ x, OriginOf origins x y := by
  obtain ⟨root, hroot, hpath⟩ := hy
  induction hpath with
  | refl =>
      obtain ⟨_, x, -, hx, -⟩ := node_of_copies h.root hroot
      exact ⟨x, hx⟩
  | @tail z y _ hrefers ih =>
      obtain ⟨x, hx⟩ := ih
      obtain ⟨node, hnode, hmem⟩ := hrefers
      obtain ⟨found, hfound, hcopies⟩ := h.node z.index x hx
      obtain rfl := Option.some.inj (hnode.symm.trans hfound)
      obtain ⟨value', hvalue', hnode'⟩ := List.mem_filterMap.mp hmem
      obtain ⟨value, -, hcopy⟩ := exists_left_of_forall₂ (hcopies.children hr) hvalue'
      obtain ⟨_, x', -, hx', -⟩ := node_of_copies hcopy hnode'
      exact ⟨x', hx'⟩

/-- What is encoded of a copy is all that it holds. Of an object this is so because it was decoded
with the fields of its shape and no others. -/
theorem slots_eq (hr : c.input.registry.Valid) (hxy : OriginOf origins x y) :
    ∃ node, t.node? y = some node ∧ t.slots c.input.registry y = node.children := by
  obtain ⟨node, hnode, hcopies⟩ := h.node y.index x hxy
  have hnode : t.node? y = some node := hnode
  refine ⟨node, hnode, ?_⟩
  cases hcopies with
  | array harray hvalues => exact Tree.slots_of_array (Tree.array?_eq_some_iff.mpr hnode)
  | @object shape values hshape hvalues =>
      obtain ⟨object, hobject, hlookup⟩ := Tree.shape?_eq_some_iff.mp hshape
      have hlength : (c.input.registry.fields shape).length = values.length := by
        rw [← hvalues.length_eq, Tree.slots_of_object hobject hlookup]
        exact (List.length_map _).symm
      have hfound := Tree.object?_eq_some_iff.mpr hnode
      have heq := Registry.objectOf_eq hr hlength
      have hlookup' : c.input.registry.lookup (c.input.registry.objectOf shape values).shape =
          some shape := by
        rw [heq]
        exact hr.lookup_shapeName (Registry.lookup_eq_some hlookup).1
      rw [Tree.slots_of_object hfound hlookup', Registry.declaredValues_objectOf hr hlength, heq,
        Node.children, List.map_snd_zip (by simp [hlength])]

/-- What is encoded of all nodes is what they hold. -/
theorem flatMap_slots (hr : c.input.registry.Valid) :
    t.ids.flatMap (t.slots c.input.registry) = t.nodes.toList.flatMap Node.children := by
  have hnode : ∀ i < t.nodes.size, ∃ node, t.nodes[i]? = some node ∧
      t.slots c.input.registry ⟨i⟩ = node.children := by
    intro i hi
    have hlt : i < origins.length := h.size_eq ▸ hi
    exact h.slots_eq hr (y := ⟨i⟩) (List.getElem?_eq_getElem hlt)
  rw [List.flatMap_def, List.flatMap_def]
  refine congrArg List.flatten (List.ext_getElem (by simp [Tree.ids, Tree.size]) fun i hi _ => ?_)
  obtain ⟨node, hget, hslots⟩ := hnode i (by simpa [Tree.ids, Tree.size] using hi)
  obtain ⟨hlt, rfl⟩ := Array.getElem?_eq_some_iff.mp hget
  simp [Tree.ids, hslots]

/-- A walk meets a node no more often than the copy refers to it, for every node is opened once at
most and its slots are met once each. -/
theorem count_le_uses (hr : c.input.registry.Valid) (w : Trace (c.input.on t))
    {g : Value → Option NodeId} (hg : ∀ value x, g value = some x → value.node? = some x) :
    (w.log.filterMap g).count y ≤ uses y [t.root] t.nodes := by
  have hmono : ∀ values : List Value,
      values.countP (g · == some y) ≤ (values.filterMap Value.node?).count y := by
    intro values
    rw [List.count_filterMap]
    exact List.countP_mono_left fun value _ hvalue => by simpa using hg value y (by simpa using hvalue)
  have hsub : List.Subperm w.opened t.ids := w.nodup_opened.subperm fun z hz => by
    obtain ⟨node, hnode⟩ := (w.mem_opened.mp hz).exists_node
    have hlt : z.index < t.size := Tree.lt_size_of_node? hnode
    exact List.mem_map.mpr ⟨z.index, List.mem_range.mpr hlt, rfl⟩
  have hopened : (w.opened.flatMap (t.slots c.input.registry)).countP (g · == some y) ≤
      (t.nodes.toList.map (·.references.count y)).sum :=
    calc (w.opened.flatMap (t.slots c.input.registry)).countP (g · == some y)
        ≤ (t.ids.flatMap (t.slots c.input.registry)).countP (g · == some y) :=
          countP_flatMap_le hsub _ _
      _ ≤ ((t.nodes.toList.flatMap Node.children).filterMap Value.node?).count y := by
          rw [h.flatMap_slots hr]
          exact hmono _
      _ = (t.nodes.toList.flatMap Node.references).count y := by
          rw [List.filterMap_flatMap]
          rfl
      _ = (t.nodes.toList.map (·.references.count y)).sum := List.count_flatMap
  rw [List.count_filterMap, w.countP_log, uses]
  exact Nat.add_le_add (hmono _) hopened

end IsCopy

end Replay

/-! ### Walking the copy

The copy is encoded with the same registry and configuration, so its walk is a trace beside that of
the tree, and the two are `Twins`. What is left to compare are numbers of occurrences. -/

variable {input : WalkInput} {w : Trace input} {t : Tree} {w' : Trace (input.on t)}
  {origins : List NodeId} {size : Nat} {x y : NodeId} {shape : ShapeId} {table : UniqueTable NodeId}

/-- The module of a walk that nothing is merged after, to be read back. -/
abbrev Trace.replay (w : Trace input) (size : Nat) : Replay :=
  ⟨input, w.shapes, w.rank, w.finalized, size⟩

theorem Trace.separates (w : Trace input) : (w.replay size).Separates :=
  fun _ _ hx heq => w.rank_inj (w.hasNode_finalized.mp hx) heq

theorem Trace.mem_order_of_array (hx : x ∈ w.log.filterMap Value.array?) :
    x ∈ (w.replay size).order := by
  refine List.mem_append_right _ ?_
  show x ∈ w.finalized.arrays.keys
  rw [w.keys_arrays, UniqueTable.mem_inOrder]
  exact List.mem_filter.mpr ⟨List.mem_eraseDups.mpr hx, rfl⟩

/-- The objects that stand in tables are those that are met often enough. -/
theorem Trace.mem_order_iff (hr : input.registry.Valid)
    (ht : w.finalized.objects.table? shape = some table) (hx : x ∈ input.objectsOf shape w.log) :
    x ∈ (w.replay size).order ↔
      input.config.inlineLimit.all (· < (input.objectsOf shape w.log).count x) = true := by
  have hb := w.located hr
  have hkeys : x ∈ table.keys ↔
      input.config.inlineLimit.all (· < (input.objectsOf shape w.log).count x) = true := by
    rw [w.keys_objects ht, UniqueTable.mem_inOrder, List.mem_filter, List.mem_eraseDups]
    exact and_iff_right hx
  obtain ⟨hlog, htable⟩ := Logged.mem_objectsOf.mp hx
  obtain ⟨own, hown, -⟩ := w.holds_of_mem_log hlog
  have htogether : w.finalized.objects.Together shape own := by
    refine htable.imp (fun hshared => hb.partitioned.trans hshared) fun hshape => ?_
    exact Option.some.inj (hshape.symm.trans hown)
  rw [← hkeys]
  constructor
  · intro hmem
    rcases List.mem_append.mp hmem with hobject | harray
    · obtain ⟨found, hfound, hkey⟩ := List.mem_flatMap.mp hobject
      obtain ⟨other, hother, -⟩ := hb.filled.wellShaped.exists_table? hfound
      exact hb.mem_keys_of_mem_keys hown (ObjectTables.table?_congr htogether ▸ ht) hother hkey
    · obtain ⟨object, hobject, -⟩ := Tree.shape?_eq_some_iff.mp hown
      have harray := (hb.array_of_mem_keys harray).1
      simp [Tree.array?_eq_none_of_object hobject] at harray
  · intro hkey
    obtain ⟨found, hfound, -, rfl⟩ := ObjectTables.exists_mem_of_table? ht
    exact List.mem_append_left _ (List.mem_flatMap.mpr ⟨found, hfound, hkey⟩)

/-- Unless objects are written in place, all nodes are in the tables. -/
theorem Trace.mem_order (hr : input.registry.Valid) (hinline : input.config.inlineObjects = false)
    (hx : w.HasNode x) : x ∈ (w.replay size).order := by
  obtain ⟨value, hvalue, hnode⟩ := w.exists_mem_log hx
  have hholds := w.holds_of_mem_log hvalue
  cases value with
  | null | boolean _ | number _ | string _ => simp [Value.node?] at hnode
  | array id =>
      obtain rfl := Option.some.inj hnode
      exact w.mem_order_of_array (List.mem_filterMap.mpr ⟨_, hvalue, rfl⟩)
  | object id =>
      obtain rfl := Option.some.inj hnode
      obtain ⟨shape, hshape, -⟩ := hholds
      obtain ⟨t, ht, -⟩ := (hasNode_object_iff hshape).mp (w.hasNode_finalized.mpr hx)
      refine (w.mem_order_iff hr ht (Logged.mem_objectsOf.mpr ⟨hvalue, Or.inr hshape⟩)).mpr ?_
      rw [EncodingConfig.inlineLimit, hinline]
      rfl

/-- A copy of a tree, and its walk. The condition on the layout is the one of the theorem; nodes of
both walks can be ranked, since neither tree has a cycle. -/
structure Rewalked (w : Trace input) (w' : Trace (input.on t)) (origins : List NodeId) (size : Nat) :
    Prop where
  valid : input.registry.Valid
  copy : (w.replay size).IsCopy origins t
  layout : ¬ (input.config.inlineObjects = true ∧ input.config.orderByHitCount = true)
  ranking : w.module.Ranking input.tree input.registry w.rank
  ranking' : w'.module.Ranking t input.registry w'.rank

namespace Rewalked

/-- A node of the walk of the copy was written for a node. -/
def WrittenFor (w' : Trace (input.on t)) (origins : List NodeId) (x y : NodeId) : Prop :=
  OriginOf origins x y ∧ w'.HasNode y

theorem left_unique {x' : NodeId} (h : WrittenFor w' origins x y) (h' : WrittenFor w' origins x' y) :
    x = x' :=
  h.1.unique h'.1

variable (h : Rewalked w w' origins size)
include h

theorem twins : Twins w w' (WrittenFor w' origins) where
  corresponding := (h.copy.corresponding h.valid w.separates).restrict
    fun _ hy _ hvalue _ hchild => w'.hasNode_slot hy hvalue hchild
  root := (h.copy.alike_root w.separates).restrict fun _ hy => w'.hasNode_root hy
  ranking := ⟨w.rank, h.ranking⟩
  ranking' := ⟨w'.rank, h.ranking'⟩

theorem hasNode (hxy : WrittenFor w' origins x y) : w.HasNode x :=
  w.hasNode_finalized.mp (h.copy.hasNode x (List.mem_of_getElem? hxy.1))

/-- A node of the tables has one copy. -/
theorem right_unique {y' : NodeId} (hx : x ∈ (w.replay size).order)
    (hy : WrittenFor w' origins x y) (hy' : WrittenFor w' origins x y') : y = y' :=
  h.copy.copy_unique (w.located h.valid) hx hy.1 hy'.1

/-- Where indices go by the number of uses, nodes and their copies correspond one to one, for then
no object is written in place. -/
theorem one_to_one (hordering : input.config.ordering = .hitCountDescending) :
    ∀ x y y', WrittenFor w' origins x y → WrittenFor w' origins x y' → y = y' := by
  intro x y y' hy hy'
  have hhits : input.config.orderByHitCount = true := by
    by_contra hnot
    simp [EncodingConfig.ordering, hnot] at hordering
  have hinline : input.config.inlineObjects = false := by
    by_contra hplace
    exact h.layout ⟨by simpa using hplace, hhits⟩
  exact h.right_unique (w.mem_order h.valid hinline (h.hasNode hy)) hy hy'

/-- A copy gets an index if and only if its origin has one. If the origin has one, it has one copy,
with at least as many uses. If not, the copy has one use and the origin has too few of at least one.
-/
theorem kept_iff (ht : w.finalized.objects.table? shape = some table)
    (hx : x ∈ input.objectsOf shape w.log) (hxy : WrittenFor w' origins x y) :
    input.config.inlineLimit.all (· < (input.objectsOf shape w.log).count x) =
      input.config.inlineLimit.all (· < ((input.on t).objectsOf shape w'.log).count y) := by
  have hiff : x ∈ (w.replay size).order ↔ _ := w.mem_order_iff h.valid ht hx
  have htabled := fun left right => @tabled?_of_alike input t _ left right h.twins.corresponding
    input.config.partitionedTables shape
  cases hlimit : input.config.inlineLimit with
  | none => rfl
  | some limit =>
      rw [hlimit] at hiff
      simp only [Option.all_some, decide_eq_true_eq] at hiff ⊢
      refine decide_eq_decide.mpr ?_
      by_cases hmem : x ∈ (w.replay size).order
      · have hle := h.twins.count_le htabled (fun _ _ _ => left_unique)
          fun y' hy' => h.right_unique hmem hy' hxy
        have hlt := hiff.mp hmem
        exact iff_of_true hlt (Nat.lt_of_lt_of_le hlt hle)
      · -- the copy is written in place once, so it has no more uses than the origin
        have huses := h.copy.owned y (h.copy.length_le_of_notMem hmem hxy.1)
        have hle := h.copy.count_le_uses (y := y) h.valid w'
          (g := (t.tabled? input.registry input.config.partitionedTables shape)) fun value z hz => by
            obtain ⟨hobject, -⟩ := Option.filter_eq_some_iff.mp hz
            cases value with
            | object id => exact hobject
            | null | boolean _ | number _ | string _ | array _ => simp [Value.object?] at hobject
        have hpos : 0 < (input.objectsOf shape w.log).count x := List.count_pos_iff.mpr hx
        have hnot := mt hiff.mpr hmem
        refine iff_of_false hnot fun hlt => hnot ?_
        have hlt : limit < (w'.log.filterMap
          (t.tabled? input.registry input.config.partitionedTables shape)).count y := hlt
        omega

/-- Both walks list the same strings in the same order. -/
theorem strings_eq : w'.finalized.strings.keys = w.finalized.strings.keys := by
  -- First occurrences agree in any case; their numbers count only if the order goes by them.
  have hfirsts := h.twins.eraseDups_eq (f := Value.string?) (g := Value.string?)
    fun _ _ => string?_of_alike
  have hnodup := Firsts.nodup_eraseDups (w.log.filterMap Value.string?)
  have hkeys : List.Forall₂ (· = ·) w.finalized.strings.keys w'.finalized.strings.keys := by
    rw [w.keys_strings, w'.keys_strings]
    refine UniqueTable.forall₂_inOrder (List.forall₂_same.mpr fun _ _ => rfl)
      (Firsts.eraseDups_of_nodup hnodup).symm
      (hfirsts.trans (Firsts.eraseDups_of_nodup hnodup).symm) (fun _ _ _ _ => rfl) ?_ ?_
    · intro s s' u u' _ _ _ _ hss' huu'
      rw [hss', huu']
    · intro hordering s s' _ hss'
      subst hss'
      exact h.twins.count_string_eq (fun _ _ _ => left_unique) (h.one_to_one hordering) s
  rw [List.forall₂_eq_eq_eq] at hkeys
  exact hkeys.symm

/-- Both walks list arrays and their copies in the same order. Arrays are always in the table, so
each has one copy. -/
theorem arrays_match :
    List.Forall₂ (WrittenFor w' origins) w.finalized.arrays.keys w'.finalized.arrays.keys := by
  obtain ⟨xs, ys, hall, hlog, hlog'⟩ := h.twins.nodes fun _ _ => array?_of_alike
  rw [w.keys_arrays, w'.keys_arrays]
  refine UniqueTable.forall₂_inOrder hall hlog hlog' (fun _ _ _ _ => rfl) ?_ ?_
  · intro x y x' y' hx _ _ _ hxy hxy'
    constructor
    · rintro rfl
      exact h.right_unique (w.mem_order_of_array hx) hxy hxy'
    · rintro rfl
      exact left_unique hxy hxy'
  · intro hordering x y _ hxy
    exact h.twins.count_eq (fun _ _ => array?_of_alike) (fun _ _ _ => left_unique)
      (h.one_to_one hordering) hxy

/-- Both walks have tables for the same shapes, and list objects and their copies in the same order.
Only objects with an index have to have one copy. -/
theorem objects_match : List.Forall₂ (TablesMatch (WrittenFor w' origins))
    w.finalized.objects.tables w'.finalized.objects.tables := by
  have hb := w.located h.valid
  have hb' : Located (input.on t) w'.shapes w'.rank w'.finalized := w'.located h.valid
  have htabled := fun shape left right => @tabled?_of_alike input t _ left right
    h.twins.corresponding input.config.partitionedTables shape
  refine tablesMatch_of_keys hb.filled.wellShaped hb'.filled.wellShaped
    (hb'.partitioned.trans hb.partitioned.symm) ?_ fun shape table table' ht ht' => ?_
  -- The tables are made in the order in which shapes are met.
  · have hshapes : w'.module.objects.shapes = w.module.objects.shapes := by
      have hlogs : (input.on t).shapesOf w'.log = input.shapesOf w.log := h.twins.shapes_eq
      rw [w.logged.shapes, w'.logged.shapes, hlogs]
    simpa [Trace.finalized, finalize, ObjectTables.shapes, Function.comp_def] using hshapes
  · obtain ⟨xs, ys, hall, hlog, hlog'⟩ := h.twins.nodes (htabled shape)
    rw [w.keys_objects ht, w'.keys_objects ht']
    refine UniqueTable.forall₂_inOrder hall hlog hlog' (fun x y hx hxy => h.kept_iff ht hx hxy) ?_ ?_
    · intro x y x' y' hx _ hkept _ hxy hxy'
      constructor
      · rintro rfl
        exact h.right_unique ((w.mem_order_iff h.valid ht hx).mpr hkept) hxy hxy'
      · rintro rfl
        exact left_unique hxy hxy'
    · intro hordering x y _ hxy
      exact h.twins.count_eq (htabled shape) (fun _ _ _ => left_unique) (h.one_to_one hordering) hxy

/-- The module of the copy is written like that of the tree. Every node survives as itself in both,
so what is asked of survivors is asked of the nodes. -/
theorem mirrors : Mirrors input t (WrittenFor w' origins) w.shapes w.rank w'.rank w.finalized
    w'.finalized where
  left := w.located h.valid
  right := h.twins.shapes_eq ▸ w'.built h.valid h.ranking'
  corresponding := h.twins.corresponding
  hasNode _ _ hxy :=
    ⟨w.hasNode_finalized.mpr (h.hasNode hxy), w'.hasNode_finalized.mpr hxy.2⟩
  root := h.twins.root
  strings := h.strings_eq
  arrays := h.arrays_match
  objects := h.objects_match
  survivor x y s s' hxy hs hs' := by
    obtain rfl := Option.some.inj ((w.repOf_finalized (h.hasNode hxy)).symm.trans hs)
    obtain rfl := Option.some.inj ((w'.repOf_finalized hxy.2).symm.trans hs')
    exact hxy
  unique x y s s' z z' hxy hs hs' hzz' hz _ := by
    obtain rfl := Option.some.inj ((w.repOf_finalized (h.hasNode hxy)).symm.trans hs)
    obtain rfl := Option.some.inj ((w'.repOf_finalized hxy.2).symm.trans hs')
    constructor
    · rintro rfl
      exact h.right_unique (Replay.mem_order_of_indexed hz) hxy hzz'
    · rintro rfl
      exact left_unique hxy hzz'

end Rewalked

/-! ### Encoding again

The pieces are put together here: decoding makes a copy, the copy is walked to its end, and the two
modules mirror each other, so the bytes are the same. -/

variable {description : RegistryDescription} {registry : Registry} {tree decoded : Tree}
  {config : EncodingConfig} {bytes : List UInt8}

/-- Without deduplication, the module of a tree is what its walk makes. -/
theorem build_of_walk {w : Trace ⟨tree, registry, config⟩} (hdedupe : config.dedupe = false)
    (h : WalkInput.walk ⟨tree, registry, config⟩ = .ok (w.module, w.postOrder)) :
    build tree registry config = .ok w.finalized := by
  refine bind_eq_ok.mpr ⟨_, h, ?_⟩
  simp only [hdedupe]
  rfl

theorem exists_trace_of_build {m : Module} (hr : registry.Valid) (hdedupe : config.dedupe = false)
    (h : build tree registry config = .ok m) :
    ∃ w : Trace ⟨tree, registry, config⟩, m = w.finalized := by
  obtain ⟨⟨walked, postOrder⟩, hwalk, -⟩ := bind_eq_ok.mp h
  obtain ⟨w, rfl, rfl⟩ := WalkInput.exists_trace hr hwalk
  exact ⟨w, Except.ok.inj (h.symm.trans (build_of_walk hdedupe hwalk))⟩

end Module

end SyntaxPack
