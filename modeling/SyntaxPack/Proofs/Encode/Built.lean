import SyntaxPack.Module.Dedupe
import SyntaxPack.Proofs.Encode.Merged
/-!
# SyntaxPack.Proofs.Encode.Built

Finalized modules.

Everything that the encoder writes is looked up in a finalized module, and `Located` says
what it finds there: a string at the position of the string itself, a node at the
position of a node of the same number, or, where objects are written in place, an
object of the same number without a position.

The module is that of a walk, merged or not, and then finalized. Finalizing keeps names, links and
tags of elements (`SameTables`), so all that was true of the tables before is true of them
afterwards, and every entry that is kept has an index.

The numbers of nodes are a parameter, `rank`. After deduplication they are those of the classes,
without it the positions in the order of the walk. A ranking is only asked for where objects are
written in place (`Built`): nothing else has to come to an end when a module is written.
-/

namespace SyntaxPack

namespace Module

variable {tree : Tree} {registry : Registry} {config : EncodingConfig} {shapes : List ShapeId}
  {rank : NodeId → Nat} {m m' : Module} {id : NodeId} {shape : ShapeId}

/-- A finalized module of a tree, in which nodes that have one number by `rank` are of one kind. Its
fields are all that writing a module relies on: indices of what is kept, what survives for a node,
and that the checks of the walk were passed. -/
structure Located (input : WalkInput) (shapes : List ShapeId) (rank : NodeId → Nat)
    (m : Module) : Prop where
  filled : Filled input.tree input.registry shapes m
  tags : TagsIndexed input.registry shapes m
  strings : UniqueTable.Finalized m.strings
  arrays : UniqueTable.Finalized m.arrays
  objects : ∀ shape t, m.objects.table? shape = some t → UniqueTable.Finalized t
  partitioned : m.objects.partitioned = input.config.partitionedTables
  string_count : m.strings.keys.length = m.strings.size
  array_count : m.arrays.keys.length = m.arrays.size
  object_count : input.config.inlineObjects = false → ∀ shape t,
    m.objects.table? shape = some t → t.keys.length = t.size
  string_keys : ∀ s ∈ m.strings.names, s ∈ m.strings.keys
  array_keys : ∀ id y, m.arrays.rep id = some y → y ∈ m.arrays.keys
  object_keys : input.config.inlineObjects = false → ∀ shape t, m.objects.table? shape = some t →
    ∀ id y, t.rep id = some y → y ∈ t.keys
  rep : ∀ id, m.HasNode input.tree input.registry id → ∃ y,
    m.repOf input.tree input.registry id = some y ∧ m.HasNode input.tree input.registry y ∧
      rank y = rank id
  kind : ∀ a b, m.HasNode input.tree input.registry a → m.HasNode input.tree input.registry b →
    rank a = rank b → input.tree.SameKind input.registry a b
  reachable : ∀ id, m.HasNode input.tree input.registry id → input.tree.Reachable id
  complete : ∀ id, m.HasNode input.tree input.registry id → input.Complete m id
  root_eq : m.root = input.tree.root
  root : m.Holds input.tree input.registry input.tree.root

/-- A finalized module that can be written: if objects are written in place, they come to
an end, as the numbers of nodes grow from children to parents. -/
structure Built (input : WalkInput) (shapes : List ShapeId) (rank : NodeId → Nat) (m : Module) :
    Prop extends Located input shapes rank m where
  ranking : input.config.inlineObjects = true → m.Ranking input.tree input.registry rank

/-! ### Finalization

Finalizing a table sets indices and the order. What is said below is that nothing else has changed.
-/

/-- The objects that keep an index under a threshold for writing in place. -/
def keptFor (limit : Option Nat) (entry : Entry NodeId NodeId) : Bool := limit.all (· < entry.hitCount)

/-- The table of a shape is finalized like all others, with the objects that keep an index. -/
theorem table?_finalize (m : Module) (ordering : TableOrdering) (limit : Option Nat)
    (shape : ShapeId) : (m.finalize ordering limit).objects.table? shape =
      (m.objects.table? shape).map (·.finalize ordering (keptFor limit)) :=
  ObjectTables.table?_map (fun t => { t with table := t.table.finalize ordering (keptFor limit) })
    (fun _ => rfl) (·.finalize ordering (keptFor limit)) fun _ => rfl

theorem keyOf_congr_elementTag? (h : m'.elementTag? id = m.elementTag? id) :
    m'.keyOf tree registry rank id = m.keyOf tree registry rank id := by
  simp only [keyOf, h]

/-- Having one number is about the nodes and their element tags only. -/
theorem Classed.congr (h : m.Classed tree registry rank)
    (hnode : ∀ id, m'.HasNode tree registry id ↔ m.HasNode tree registry id)
    (htags : ∀ id, m'.elementTag? id = m.elementTag? id) : m'.Classed tree registry rank := by
  intro a b ha hb heq
  rw [keyOf_congr_elementTag? (htags a), keyOf_congr_elementTag? (htags b)]
  exact h a b ((hnode a).mp ha) ((hnode b).mp hb) heq

/-- A ranking is about the nodes and their element tags only. -/
theorem Ranking.congr (h : m.Ranking tree registry rank)
    (hnode : ∀ id, m'.HasNode tree registry id ↔ m.HasNode tree registry id)
    (htags : ∀ id, m'.elementTag? id = m.elementTag? id) : m'.Ranking tree registry rank where
  lt_size id hid := h.lt_size id ((hnode id).mp hid)
  child_lt id hid := h.child_lt id ((hnode id).mp hid)
  alike := h.alike.congr hnode htags

/-- Nodes that look the same are of one kind. -/
theorem sameKind_of_keyOf_eq {a b : NodeId} {key : ClassKey}
    (ha : m.keyOf tree registry rank a = some key) (hb : m.keyOf tree registry rank b = some key) :
    tree.SameKind registry a b := by
  have hkind := kind_of_keyOf ha
  have hkind' := kind_of_keyOf hb
  cases hshape : key.shape? with
  | none =>
      simp only [hshape] at hkind hkind'
      exact ⟨hkind.trans hkind'.symm,
        (Tree.shape?_eq_none_of_array hkind).trans (Tree.shape?_eq_none_of_array hkind').symm⟩
  | some shape =>
      simp only [hshape] at hkind hkind'
      refine ⟨?_, hkind.trans hkind'.symm⟩
      rw [Tree.array?_eq_none_of_shape hkind, Tree.array?_eq_none_of_shape hkind']

/-- What finalization leaves as it is: names, values and links of all tables, which objects are
there, what survives for a node, the tags of elements and the root. -/
structure SameTables (tree : Tree) (registry : Registry) (m m' : Module) : Prop where
  strings : m.strings.SameEntries m'.strings
  arrays : m.arrays.SameEntries m'.arrays
  partitioned : m'.objects.partitioned = m.objects.partitioned
  hasObject : ∀ shape id, m'.HasObject shape id ↔ m.HasObject shape id
  repOf : ∀ id, m'.repOf tree registry id = m.repOf tree registry id
  elementTags : m'.elementTags = m.elementTags
  root : m'.root = m.root

theorem sameTables_finalize (m : Module) (tree : Tree) (registry : Registry)
    (ordering : TableOrdering) (limit : Option Nat) :
    SameTables tree registry m (m.finalize ordering limit) := by
  have harrays := m.arrays.sameEntries_finalize ordering fun _ => true
  refine ⟨m.strings.sameEntries_finalize ordering _, harrays, rfl, fun shape id => ?_, fun id => ?_,
    rfl, rfl⟩
  · simp only [HasObject, table?_finalize]
    cases m.objects.table? shape with
    | none => simp
    | some t =>
        have hnames := (t.sameEntries_finalize ordering (keptFor limit)).names
        simp [hnames]
  · have hobjects : ∀ shape, ((m.finalize ordering limit).objects.table? shape).bind (·.rep id) =
        (m.objects.table? shape).bind (·.rep id) := by
      intro shape
      rw [table?_finalize]
      cases m.objects.table? shape with
      | none => rfl
      | some t =>
          exact congrFun (UniqueTable.rep_of_sameEntries
            (t.sameEntries_finalize ordering (keptFor limit))) id
    simp only [repOf, hobjects]
    rw [show (m.finalize ordering limit).arrays.rep = m.arrays.rep from
      UniqueTable.rep_of_sameEntries harrays]

namespace SameTables

variable (h : SameTables tree registry m m')
include h

theorem hasNode_iff : m'.HasNode tree registry id ↔ m.HasNode tree registry id := by
  simp only [HasNode, h.hasObject, h.arrays.names]

theorem grows : Extends m m' where
  strings _ hs := h.strings.names ▸ hs
  arrays _ hid := h.arrays.names ▸ hid
  objects shape id hid := (h.hasObject shape id).mpr hid
  partitioned := h.partitioned

end SameTables

/-- Filled tables stay filled when they are finalized. -/
theorem Filled.finalize (hf : Filled tree registry shapes m) (ordering : TableOrdering)
    (limit : Option Nat) : Filled tree registry shapes (m.finalize ordering limit) := by
  have hs := sameTables_finalize m tree registry ordering limit
  have htable : ∀ shape t, (m.finalize ordering limit).objects.table? shape = some t →
      ∃ u, m.objects.table? shape = some u ∧ u.SameEntries t := by
    intro shape t ht
    rw [table?_finalize] at ht
    obtain ⟨u, hu, rfl⟩ := Option.map_eq_some_iff.mp ht
    exact ⟨u, hu, u.sameEntries_finalize ordering _⟩
  refine ⟨UniqueTable.valid_of_sameEntries hs.strings hf.strings, ?_,
    UniqueTable.valid_of_sameEntries hs.arrays hf.arrays, hf.wellShaped.map _ fun _ => rfl, ?_, ?_, ?_,
    ?_, hf.tags.congr (m.tags.sameEntries_finalize .insertion _), fun shape id hshape hhas => ?_⟩
  · intro s hmem
    rw [UniqueTable.rep_of_sameEntries hs.strings]
    exact hf.strings_plain s (hs.strings.names ▸ hmem)
  · intro shape t ht
    obtain ⟨u, hu, hsame⟩ := htable shape t ht
    exact UniqueTable.valid_of_sameEntries hsame (hf.objects shape u hu)
  · intro id hid
    exact hf.array_of_mem id (hs.arrays.names ▸ hid)
  · intro shape t ht id hid
    obtain ⟨u, hu, hsame⟩ := htable shape t ht
    exact hf.shape_of_mem shape u hu id (hsame.names ▸ hid)
  · intro hp shape t ht
    obtain ⟨u, hu, hsame⟩ := htable shape t ht
    rw [hsame.names]
    exact hf.nonempty hp shape u hu
  · exact hf.mem_shapes shape id hshape ((hs.hasObject shape id).mp hhas)

/-- Every complete node has a key. -/
theorem exists_keyOf {input : WalkInput} (h : input.Complete m id)
    (hid : m.HasNode input.tree input.registry id) :
    ∃ key, m.keyOf input.tree input.registry rank id = some key := by
  rcases hid with ⟨harray, -⟩ | ⟨shape, hshape, -⟩
  · obtain ⟨elements, helements⟩ := Option.isSome_iff_exists.mp harray
    obtain ⟨tags, tag, -, -, htag⟩ := h.array elements helements
    refine ⟨.array tag (elements.map (atomOf rank)), ?_⟩
    simp [keyOf, Tree.array?_eq_some_iff.mp helements, htag]
  · obtain ⟨object, hobject, hlookup⟩ := Tree.shape?_eq_some_iff.mp hshape
    refine ⟨.object shape ((Tree.declaredValues input.registry shape object).map (atomOf rank)), ?_⟩
    simp [keyOf, Tree.object?_eq_some_iff.mp hobject, hlookup]

/-- The nodes and the element tags of finalized tables are those that the walk found. -/
theorem MergedFrom.finalize (h : MergedFrom tree registry shapes rank m m')
    (ordering : TableOrdering) (limit : Option Nat) :
    (∀ id, (m'.finalize ordering limit).HasNode tree registry id ↔ m.HasNode tree registry id) ∧
      ∀ id, (m'.finalize ordering limit).elementTag? id = m.elementTag? id := by
  have hs := sameTables_finalize m' tree registry ordering limit
  refine ⟨fun id => hs.hasNode_iff.trans (h.hasNode_iff id), fun id => ?_⟩
  rw [elementTag?, hs.elementTags, h.elementTags, elementTag?]

/-- Finalizing the merged tables of a walk gives a module in which everything can be looked up. -/
theorem WalkInput.Walked.located {input : WalkInput} {postOrder : List NodeId}
    (h : input.Walked m postOrder) (hr : input.registry.Valid)
    (halike : m.Classed input.tree input.registry rank)
    (hmerged : MergedFrom input.tree input.registry shapes rank m m') :
    Located input shapes rank (m'.finalize input.config.ordering input.config.inlineLimit) := by
  have hf := hmerged.filled
  have hb := hmerged.building
  have hs := sameTables_finalize m' input.tree input.registry input.config.ordering
    input.config.inlineLimit
  have hgrows := hmerged.grows.trans hs.grows
  -- Unless objects are written in place, all of them are kept.
  have hall : input.config.inlineObjects = false →
      keptFor input.config.inlineLimit = fun _ => true := by
    intro hplace
    rw [EncodingConfig.inlineLimit, hplace]
    rfl
  obtain ⟨hnode, htags⟩ := hmerged.finalize input.config.ordering input.config.inlineLimit
  refine ⟨hf.finalize _ _, hf.tags.indexed hb.tags rfl rfl hr, hf.strings.finalized hb.strings _ _,
    hf.arrays.finalized hb.arrays _ _, fun shape t ht => ?_,
    (hs.partitioned.trans hmerged.grows.partitioned).trans h.partitioned,
    hf.strings.length_keys_finalizeAll hb.strings _, hf.arrays.length_keys_finalizeAll hb.arrays _,
    fun hplace shape t ht => ?_, fun s hmem => ?_,
    fun id y hy => ?_, fun hplace shape t ht id y hy => ?_, fun id hid => ?_, fun a b ha hb heq => ?_,
    fun id hid => ?_,
    fun id hid => ?_, hs.root.trans (hmerged.root.trans h.root_eq), hgrows.holds h.root⟩
  · rw [table?_finalize] at ht
    obtain ⟨u, hu, rfl⟩ := Option.map_eq_some_iff.mp ht
    exact (hf.objects shape u hu).finalized (hb.objects shape u hu) _ _
  · rw [table?_finalize] at ht
    obtain ⟨u, hu, rfl⟩ := Option.map_eq_some_iff.mp ht
    rw [hall hplace]
    exact (hf.objects shape u hu).length_keys_finalizeAll (hb.objects shape u hu) _
  · exact hf.strings.mem_keys_finalizeAll hb.strings _
      (hf.strings_plain s (hs.strings.names ▸ hmem))
  · rw [UniqueTable.rep_of_sameEntries hs.arrays] at hy
    exact hf.arrays.mem_keys_finalizeAll hb.arrays _ hy
  · rw [table?_finalize] at ht
    obtain ⟨u, hu, rfl⟩ := Option.map_eq_some_iff.mp ht
    rw [UniqueTable.rep_of_sameEntries (u.sameEntries_finalize _ _)] at hy
    rw [hall hplace]
    exact (hf.objects shape u hu).mem_keys_finalizeAll (hb.objects shape u hu) _ hy
  · obtain ⟨y, hy, hynode, hrank⟩ := hmerged.rep id ((hnode id).mp hid)
    exact ⟨y, (hs.repOf id).trans hy, (hnode y).mpr hynode, hrank⟩
  · obtain ⟨key, hkey⟩ := exists_keyOf (h.complete a ((h.mem_iff a).mpr ((hnode a).mp ha)))
      ((hnode a).mp ha)
    exact sameKind_of_keyOf_eq hkey
      ((halike a b ((hnode a).mp ha) ((hnode b).mp hb) heq).symm.trans hkey)
  · exact (h.inUse id ((h.mem_iff id).mpr ((hnode id).mp hid))).reachable
  · exact (h.complete id ((h.mem_iff id).mpr ((hnode id).mp hid))).mono hgrows (htags id)

/-- The module of a tree is finalized and complete. Deduplication has seen to it that
children are numbered before their parents; without it, that takes a tree in which no
node that is in use is above itself. -/
theorem located_of_build (hr : registry.Valid) (h : Module.build tree registry config = .ok m) :
    ∃ shapes rank, Located ⟨tree, registry, config⟩ shapes rank m ∧ m.Classed tree registry rank ∧
      ((∀ id, tree.InUse registry id → ¬ tree.Above registry id id) ∨ config.dedupe = true →
        m.Ranking tree registry rank) := by
  obtain ⟨⟨walked, postOrder⟩, hwalk, h₁⟩ := bind_eq_ok.mp h
  have hw : WalkInput.Walked ⟨tree, registry, config⟩ walked postOrder :=
    WalkInput.walked_of_walk hr hwalk
  cases hdedupe : config.dedupe with
  | true =>
      simp only [hdedupe, if_true] at h₁
      obtain ⟨merged, hmerge, h₂⟩ := bind_eq_ok.mp h₁
      obtain rfl := Except.ok.inj h₂
      obtain ⟨shapes, rank, hrank, hmerged⟩ := hw.dedupe hmerge
      obtain ⟨hnode, htags⟩ := hmerged.finalize config.ordering config.inlineLimit
      exact ⟨shapes, rank, hw.located hr hrank.alike hmerged, hrank.alike.congr hnode htags,
        fun _ => hrank.congr hnode htags⟩
  -- Without deduplication different nodes have different numbers.
  | false =>
      simp only [hdedupe, Bool.false_eq_true, if_false] at h₁
      obtain rfl := Except.ok.inj h₁
      obtain ⟨shapes, hf⟩ := hw.gathered.filled
      have hmerged : MergedFrom tree registry shapes (postOrder.idxOf ·) walked walked :=
        mergedFrom_refl hf hw.gathered.building hw.gathered.unmerged
      obtain ⟨hnode, htags⟩ := hmerged.finalize config.ordering config.inlineLimit
      have hclassed : walked.Classed tree registry (postOrder.idxOf ·) := by
        intro a b ha _ heq
        obtain rfl : a = b := (List.idxOf_inj ((hw.mem_iff a).mpr ha)).mp heq
        rfl
      refine ⟨shapes, _, hw.located hr hclassed hmerged, hclassed.congr hnode htags,
        fun hranked => ?_⟩
      exact (hw.ranking (hranked.resolve_right Bool.false_ne_true)).congr hnode htags

/-- The module of a tree whose root reaches no cycle can be written. -/
theorem built_of_build (hr : registry.Valid)
    (hacyclic : ∀ id, tree.Reachable id → ¬ tree.Reaches id id)
    (h : Module.build tree registry config = .ok m) :
    ∃ shapes rank, Built ⟨tree, registry, config⟩ shapes rank m := by
  obtain ⟨shapes, rank, hlocated, -, hranking⟩ := located_of_build hr h
  exact ⟨shapes, rank, hlocated, fun _ => hranking (Or.inl (Tree.not_above_of_acyclic hacyclic))⟩

/-! ### Looking things up

What the writer asks of a module, and what it gets: an index, and what stands in the table at that
index. -/

/-- What is known of the entry of an object that a slot refers to. `survivor` is the
object that is written for it. -/
structure FoundObject (input : WalkInput) (rank : NodeId → Nat) (m : Module) (shape : ShapeId)
    (id : NodeId) (t : UniqueTable NodeId) (entry : Handle) (survivor : NodeId) : Prop where
  table : m.objects.table? shape = some t
  require : t.require id = .ok entry
  value : t.value? entry = some survivor
  shape_eq : input.tree.shape? input.registry survivor = some shape
  hasNode : m.HasNode input.tree input.registry survivor
  rank_eq : rank survivor = rank id
  getElem?_keys : ∀ index, (t.entry? entry).bind (·.index) = some index →
    t.keys[index]? = some survivor
  notMem_keys : (t.entry? entry).bind (·.index) = none → survivor ∉ t.keys
  indexed : input.config.inlineObjects = false →
    ∃ index, (t.entry? entry).bind (·.index) = some index

namespace Located

variable {input : WalkInput} (h : Located input shapes rank m)
include h

/-- A string of the table has an index, at which the string itself stands. -/
theorem string {s : String} (hs : s ∈ m.strings.names) :
    ∃ index, m.strings.indexOf s = .ok index ∧ m.strings.keys[index]? = some s := by
  have hrep := h.filled.strings_plain s hs
  obtain ⟨index, hindex⟩ := h.strings.exists_index hrep (h.string_keys s hs)
  obtain ⟨y, hy, hkey⟩ := h.strings.getElem?_keys hindex
  obtain ⟨order, horder, -⟩ := h.strings.order
  obtain rfl : s = y := Option.some.inj (hrep.symm.trans hy)
  exact ⟨index, Table.indexOf_eq_ok horder hindex, hkey⟩

theorem array_of_rank_eq {other : NodeId} (hid : m.HasNode input.tree input.registry id)
    (hother : m.HasNode input.tree input.registry other) (hrank : rank other = rank id)
    (harray : (input.tree.array? id).isSome = true) :
    (input.tree.array? other).isSome = true := by
  rw [(h.kind other id hother hid hrank).array, harray]

theorem shape?_of_rank_eq {other : NodeId} (hid : m.HasNode input.tree input.registry id)
    (hother : m.HasNode input.tree input.registry other) (hrank : rank other = rank id)
    (hshape : input.tree.shape? input.registry id = some shape) :
    input.tree.shape? input.registry other = some shape := by
  rw [(h.kind other id hother hid hrank).shape, hshape]

/-- An array has the index of what survives for it. -/
theorem array_index (harray : (input.tree.array? id).isSome = true) (hid : id ∈ m.arrays.names) :
    ∃ index survivor, m.arrays.indexOf id = .ok index ∧ m.arrays.keys[index]? = some survivor ∧
      m.repOf input.tree input.registry id = some survivor := by
  obtain ⟨survivor, hsurvivor, -, -⟩ := h.rep id (Or.inl ⟨harray, hid⟩)
  have hrep := repOf_array harray ▸ hsurvivor
  obtain ⟨index, hindex⟩ := h.arrays.exists_index hrep (h.array_keys id survivor hrep)
  obtain ⟨y, hy, hkey⟩ := h.arrays.getElem?_keys hindex
  obtain ⟨order, horder, -⟩ := h.arrays.order
  obtain rfl : survivor = y := Option.some.inj (hrep.symm.trans hy)
  exact ⟨index, survivor, Table.indexOf_eq_ok horder hindex, hkey, hsurvivor⟩

/-- At the index of an array stands one of the same number. -/
theorem array (harray : (input.tree.array? id).isSome = true) (hid : id ∈ m.arrays.names) :
    ∃ index survivor, m.arrays.indexOf id = .ok index ∧ m.arrays.keys[index]? = some survivor ∧
      m.HasNode input.tree input.registry survivor ∧
      (input.tree.array? survivor).isSome = true ∧ rank survivor = rank id := by
  have hnode : m.HasNode input.tree input.registry id := Or.inl ⟨harray, hid⟩
  obtain ⟨index, survivor, hindex, hkey, hrep⟩ := h.array_index harray hid
  obtain ⟨found, hfound, hsurvivor, hrank⟩ := h.rep id hnode
  obtain rfl : survivor = found := Option.some.inj (hrep.symm.trans hfound)
  exact ⟨index, survivor, hindex, hkey, hsurvivor,
    h.array_of_rank_eq hnode hsurvivor hrank harray, hrank⟩

/-- The entry of an object is found in the table of its shape, with the object that survives for it.
If it has an index the survivor stands there; if not, it is not in the table at all. -/
theorem object (hshape : input.tree.shape? input.registry id = some shape)
    (hid : m.HasObject shape id) :
    ∃ t entry survivor, FoundObject input rank m shape id t entry survivor := by
  have hnode := (hasNode_object_iff hshape).mpr hid
  obtain ⟨survivor, hrep, hsurvivor, hrank⟩ := h.rep id hnode
  rw [repOf_object hshape] at hrep
  obtain ⟨t, ht, hrep⟩ := Option.bind_eq_some_iff.mp hrep
  have hf := h.objects shape t ht
  obtain ⟨entry, hget, hlive⟩ := hf.valid.liveAt_of_rep hrep
  have hindex : ∀ index, (t.entry? entry).bind (·.index) = some index ↔ t.index? id = some index :=
    fun index => by rw [Table.index?, hget, Option.bind_some]
  refine ⟨t, entry, survivor, ht, by simp only [Table.require, hget], hf.valid.value?_eq hlive,
    h.shape?_of_rank_eq hnode hsurvivor hrank hshape, hsurvivor, hrank, fun index hi => ?_,
    fun hnone hkey => ?_, fun hplace => ?_⟩
  · obtain ⟨y, hy, hkey⟩ := hf.getElem?_keys ((hindex index).mp hi)
    obtain rfl : survivor = y := Option.some.inj (hrep.symm.trans hy)
    exact hkey
  · obtain ⟨index, hi⟩ := hf.exists_index hrep hkey
    rw [(hindex index).mpr hi] at hnone
    exact Option.some_ne_none index hnone
  · obtain ⟨index, hi⟩ := hf.exists_index hrep (h.object_keys hplace shape t ht id survivor hrep)
    exact ⟨index, (hindex index).mpr hi⟩

/-- What stands in an object table is an object of one of the listed shapes. -/
theorem object_of_mem_keys {t : UniqueTable NodeId} (ht : m.objects.table? shape = some t)
    (hid : id ∈ t.keys) : ∃ own, input.tree.shape? input.registry id = some own ∧
      m.objects.Together shape own ∧ m.HasObject own id := by
  have hmem := ((h.objects shape t ht).valid.mem_of_rep ((h.objects shape t ht).keys_live id hid)).1
  obtain ⟨own, hown, htogether⟩ := h.filled.shape_of_mem shape t ht id hmem
  exact ⟨own, hown, htogether, (hasObject_congr htogether).mp ⟨t, ht, hmem⟩⟩

/-- The shape of a partitioned table is listed, since an object of the shape is in it. -/
theorem mem_shapes_of_table (hp : m.objects.partitioned = true) {table : ObjectTable}
    (htable : table ∈ m.objects.tables) : ∃ shape ∈ shapes, table.shape = some shape := by
  obtain ⟨shape, ht, hshape⟩ := h.filled.wellShaped.exists_table? htable
  obtain ⟨id, hid⟩ := List.exists_mem_of_ne_nil _ (h.filled.nonempty hp shape _ ht)
  obtain ⟨own, hown, htogether⟩ := h.filled.shape_of_mem shape _ ht id hid
  obtain rfl : shape = own := by simpa [ObjectTables.Together, hp] using htogether
  exact ⟨shape, h.filled.mem_shapes shape id hown ⟨_, ht, hid⟩, hshape hp⟩

/-- An object that is in one table is in no other. -/
theorem mem_keys_of_mem_keys {t u : UniqueTable NodeId} {other : ShapeId}
    (hshape : input.tree.shape? input.registry id = some shape)
    (ht : m.objects.table? shape = some t) (hu : m.objects.table? other = some u)
    (hid : id ∈ u.keys) : id ∈ t.keys := by
  obtain ⟨own, hown, htogether, -⟩ := h.object_of_mem_keys hu hid
  obtain rfl : shape = own := Option.some.inj (hshape.symm.trans hown)
  rw [ObjectTables.table?_congr htogether, ht] at hu
  exact Option.some.inj hu ▸ hid

theorem array_of_mem_keys (hid : id ∈ m.arrays.keys) :
    (input.tree.array? id).isSome = true ∧ m.HasNode input.tree input.registry id := by
  have hmem := (h.arrays.valid.mem_of_rep (h.arrays.keys_live id hid)).1
  have harray := h.filled.array_of_mem id hmem
  exact ⟨harray, (hasNode_array_iff harray).mpr hmem⟩

end Located

end Module

end SyntaxPack
