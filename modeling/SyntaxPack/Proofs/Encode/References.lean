import SyntaxPack.Proofs.Encode.Census
import SyntaxPack.Proofs.Encode.Survivors
/-!
# SyntaxPack.Proofs.Encode.References

References in a module and the hits of its entries.

The hits of an entry count the references to it from the root and from the slots of all
registered nodes. A node that was merged away is not written, and the hits that its slots
brought stay where they were: merging two parents of a node leaves the node with two hits and
one reference. So hits are references that are written only as long as nothing is merged, and
bound these from above in any case.

Every string is referred to from a node that is written. A node may not be, if two members
of its class survive because the class is used too rarely to be merged, while their parents
were merged.
-/

namespace SyntaxPack

/-- Three references to two pairs with equal numbers. The first pair is followed by pair 3, the
second one by pair 3 or by an equal one. -/
def Tree.twoChains (last : NodeId) : Tree where
  nodes := #[.array [.object ⟨1⟩, .object ⟨1⟩, .object ⟨2⟩],
    .object ⟨"Pair", [("left", .number ⟨0x3ff0000000000000⟩), ("next", .object ⟨3⟩)]⟩,
    .object ⟨"Pair", [("left", .number ⟨0x3ff0000000000000⟩), ("next", .object last)]⟩,
    .object ⟨"Pair", [("left", .number ⟨0x4000000000000000⟩), ("next", .null)]⟩,
    .object ⟨"Pair", [("left", .number ⟨0x4000000000000000⟩), ("next", .null)]⟩]
  root := .array ⟨0⟩

namespace UniqueTable

variable {κ : Type} {t : UniqueTable κ} {x : κ}

/-- The names of the entries that were not merged away. -/
def liveNames (t : UniqueTable κ) : List κ := (t.entries.filter Entry.isLive).map (·.name)

theorem liveNames_sublist (t : UniqueTable κ) : t.liveNames.Sublist t.names :=
  List.filter_sublist.map _

theorem mem_liveNames [DecidableEq κ] (hv : t.Valid) : x ∈ t.liveNames ↔ t.rep x = some x := by
  simp only [liveNames, List.mem_map, List.mem_filter]
  constructor
  · rintro ⟨entry, ⟨hentry, hlive⟩, rfl⟩
    exact (hv.isLive_iff hentry).mp hlive
  · intro hrep
    obtain ⟨entry, hentry, rfl⟩ := List.mem_map.mp (hv.mem_of_rep hrep).1
    exact ⟨entry, ⟨hentry, (hv.isLive_iff hentry).mpr hrep⟩, rfl⟩

end UniqueTable

namespace Module

variable {tree : Tree} {registry : Registry} {m : Module} {id : NodeId} {shapes : List ShapeId}

/-! ### The nodes of a module

The tables name all nodes that were registered, and of each class that was merged one entry is left.
Both lists are without repetition, so counting over nodes is counting over entries. -/

/-- The nodes in the tables, those that were merged away included. -/
def registered (m : Module) : List NodeId :=
  m.arrays.names ++ m.objects.tables.flatMap (·.table.names)

/-- The nodes in the tables that were not merged away. -/
def survivors (m : Module) : List NodeId :=
  m.arrays.liveNames ++ m.objects.tables.flatMap (·.table.liveNames)

theorem survivors_sublist (m : Module) : m.survivors.Sublist m.registered := by
  have hobjects : ∀ tables : List ObjectTable,
      (tables.flatMap (·.table.liveNames)).Sublist (tables.flatMap (·.table.names)) := by
    intro tables
    induction tables with
    | nil => exact .slnil
    | cons table tables ih =>
        rw [List.flatMap_cons, List.flatMap_cons]
        exact (UniqueTable.liveNames_sublist _).append ih
  exact (UniqueTable.liveNames_sublist _).append (hobjects _)

theorem Filled.mem_registered (hf : Filled tree registry shapes m) :
    id ∈ m.registered ↔ m.HasNode tree registry id := by
  rw [registered, List.mem_append, List.mem_flatMap]
  constructor
  · rintro (hid | ⟨table, htable, hid⟩)
    · exact Or.inl ⟨hf.array_of_mem id hid, hid⟩
    · obtain ⟨shape, ht, -⟩ := hf.wellShaped.exists_table? htable
      obtain ⟨own, hown, htogether⟩ := hf.shape_of_mem shape _ ht id hid
      exact Or.inr ⟨own, hown, _, (ObjectTables.table?_congr htogether).symm.trans ht, hid⟩
  · rintro (⟨-, hid⟩ | ⟨shape, -, t, ht, hid⟩)
    · exact Or.inl hid
    · obtain ⟨table, htable, -, rfl⟩ := ObjectTables.exists_mem_of_table? ht
      exact Or.inr ⟨table, htable, hid⟩

theorem Filled.nodup_registered (hf : Filled tree registry shapes m) : m.registered.Nodup := by
  have hpairwise : m.objects.tables.Pairwise
      fun table table' => List.Disjoint table.table.names table'.table.names := by
    cases hp : m.objects.partitioned with
    | false =>
        obtain ⟨t, ht⟩ := hf.wellShaped.shared hp
        rw [ht]
        exact List.pairwise_singleton _ _
    | true =>
        have hshapes := hf.wellShaped.nodup hp
        refine (List.pairwise_map.mp hshapes).imp_of_mem fun htable htable' hne x hx hx' => hne ?_
        -- an object has one shape, which is that of its table
        obtain ⟨shape, ht, hshape⟩ := hf.wellShaped.exists_table? htable
        obtain ⟨shape', ht', hshape'⟩ := hf.wellShaped.exists_table? htable'
        obtain ⟨own, hown, htogether⟩ := hf.shape_of_mem shape _ ht x hx
        obtain ⟨own', hown', htogether'⟩ := hf.shape_of_mem shape' _ ht' x hx'
        obtain rfl := Option.some.inj (hown.symm.trans hown')
        rw [hshape hp, hshape' hp, htogether.resolve_left (by simp [hp]),
          htogether'.resolve_left (by simp [hp])]
  refine List.nodup_append.mpr ⟨hf.arrays.names_nodup, ?_, ?_⟩
  · refine List.nodup_flatMap.mpr ⟨fun table htable => ?_, hpairwise⟩
    obtain ⟨shape, ht, -⟩ := hf.wellShaped.exists_table? htable
    exact (hf.objects shape _ ht).names_nodup
  · rintro x hx y hy rfl
    obtain ⟨table, htable, hid⟩ := List.mem_flatMap.mp hy
    obtain ⟨shape, ht, -⟩ := hf.wellShaped.exists_table? htable
    obtain ⟨own, hown, -⟩ := hf.shape_of_mem shape _ ht x hid
    have harray := hf.array_of_mem x hx
    simp [Tree.array?_eq_none_of_shape hown] at harray

theorem Filled.mem_survivors (hf : Filled tree registry shapes m) :
    id ∈ m.survivors ↔ m.repOf tree registry id = some id := by
  rw [survivors, List.mem_append, List.mem_flatMap, UniqueTable.mem_liveNames hf.arrays]
  constructor
  · rintro (hrep | ⟨table, htable, hid⟩)
    · rwa [repOf_array (hf.array_of_mem id (hf.arrays.mem_of_rep hrep).1)]
    · obtain ⟨shape, ht, -⟩ := hf.wellShaped.exists_table? htable
      have hrep := (UniqueTable.mem_liveNames (hf.objects shape _ ht)).mp hid
      obtain ⟨own, hown, htogether⟩ :=
        hf.shape_of_mem shape _ ht id ((hf.objects shape _ ht).mem_of_rep hrep).1
      rw [repOf_object hown, ← ObjectTables.table?_congr htogether, ht, Option.bind_some, hrep]
  · intro hrep
    rw [repOf] at hrep
    split at hrep
    · exact Or.inl hrep
    · obtain ⟨shape, -, hrep⟩ := Option.bind_eq_some_iff.mp hrep
      obtain ⟨t, ht, hrep⟩ := Option.bind_eq_some_iff.mp hrep
      obtain ⟨table, htable, -, rfl⟩ := ObjectTables.exists_mem_of_table? ht
      exact Or.inr ⟨table, htable, (UniqueTable.mem_liveNames (hf.objects shape _ ht)).mpr hrep⟩

/-! ### Hits and references

References are counted in a list of values. The list that the walk logged gives the hits; it is, in
some order, the list of the root and the slots of all registered nodes. Over the slots of the nodes
that are written the count can only be smaller. -/

/-- The root and the values in the slots of nodes. -/
def references (m : Module) (tree : Tree) (registry : Registry) (nodes : List NodeId) : List Value :=
  m.root :: nodes.flatMap (tree.slots registry)

/-- How often a string is used. -/
def stringUses (m : Module) (s : String) : Nat := ((m.strings.get? s).map m.strings.hitCount).getD 0

/-- What holds of the hits of every entry that was not merged away and of the number of
references to it among values. -/
structure Accounted (m : Module) (tree : Tree) (registry : Registry) (values : List Value)
    (holds : Nat → Nat → Prop) : Prop where
  strings : ∀ s ∈ m.strings.liveNames, holds (m.stringUses s) (values.count (.string s))
  nodes : ∀ id ∈ m.survivors,
    holds (m.usesOf (tree.shape? registry id) id) (m.referencesTo tree registry id values)

variable {input : WalkInput} {log values values' : List Value}

theorem Accounted.mono {holds holds' : Nat → Nat → Prop}
    (h : m.Accounted tree registry values holds)
    (himp : ∀ p : Value → Bool, ∀ hits, holds hits (values.countP p) → holds' hits (values'.countP p)) :
    m.Accounted tree registry values' holds' :=
  ⟨fun s hs => himp _ _ (h.strings s hs), fun id hid => himp _ _ (h.nodes id hid)⟩

/-- The hits are the references that were met. -/
theorem Tallied.accounted (h : Tallied input log m)
    (hf : Filled input.tree input.registry shapes m)
    (hlog : ∀ value ∈ log, m.Holds input.tree input.registry value) :
    m.Accounted input.tree input.registry log (· = ·) := by
  refine ⟨fun s hs => ?_, fun id hid => h.usesOf_eq hf hlog (hf.mem_survivors.mp hid)⟩
  have hrep := (UniqueTable.mem_liveNames hf.strings).mp hs
  obtain ⟨a, hget, hat⟩ := hf.strings.liveAt_of_rep hrep
  rw [stringUses, hget, Option.map_some, Option.getD_some, h.strings.hits a hat.live,
    countP_filterMap_bind, List.count_eq_countP]
  refine List.countP_congr fun value hvalue => ?_
  rw [decide_eq_true_eq, beq_iff_eq]
  cases value with
  | null | boolean _ | number _ | array _ | object _ => simp [Value.string?]
  | string other =>
      have hother := hf.strings_plain other (hlog _ hvalue)
      simp only [Value.string?, Option.bind_some, Value.string.injEq]
      rw [hf.strings.get?_eq_iff hat, hother, Option.some.injEq]

section Finalized

variable {w : Trace input} {k : Module} {rank : NodeId → Nat} (ordering : TableOrdering)
  (limit : Option Nat)

theorem Merging.mem_survivors
    (hk : Merging input.tree input.registry w.shapes rank w.module k) :
    id ∈ (k.finalize ordering limit).survivors ↔ k.repOf input.tree input.registry id = some id := by
  rw [(hk.filled.finalize ordering limit).mem_survivors,
    (sameTables_finalize k input.tree input.registry ordering limit).repOf]

theorem Merging.hasNode_of_mem_survivors
    (hk : Merging input.tree input.registry w.shapes rank w.module k)
    (hid : id ∈ (k.finalize ordering limit).survivors) : w.HasNode id := by
  have hf := hk.filled.finalize ordering limit
  exact ((hk.finalize ordering limit).1 id).mp
    (hf.mem_registered.mp ((survivors_sublist _).subset hid))

theorem Merging.root_finalize (hk : Merging input.tree input.registry w.shapes rank w.module k) :
    (k.finalize ordering limit).root = input.tree.root := by
  rw [(sameTables_finalize k input.tree input.registry ordering limit).root, hk.root,
    w.walked.root_eq]

theorem Merging.holds_finalize (hk : Merging input.tree input.registry w.shapes rank w.module k)
    {value : Value} (hvalue : value ∈ w.log) :
    (k.finalize ordering limit).Holds input.tree input.registry value :=
  (sameTables_finalize k input.tree input.registry ordering limit).grows.holds
    (hk.grows.holds (w.holds_of_mem_log hvalue))

/-- The walk met the references of all registered nodes. -/
theorem Merging.log_perm (hk : Merging input.tree input.registry w.shapes rank w.module k) :
    w.log.Perm ((k.finalize ordering limit).references input.tree input.registry
      (k.finalize ordering limit).registered) := by
  have hf := hk.filled.finalize ordering limit
  have hnodes : w.opened.Perm (k.finalize ordering limit).registered := by
    refine (List.perm_ext_iff_of_nodup w.nodup_opened hf.nodup_registered).mpr fun id => ?_
    rw [w.mem_opened, hf.mem_registered, (hk.finalize ordering limit).1]
  rw [references, hk.root_finalize]
  exact w.visits.perm.trans ((hnodes.flatMap_right _).cons _)

theorem Merging.accounted (hk : Merging input.tree input.registry w.shapes rank w.module k)
    (ht : Tallied input w.log k) :
    (k.finalize ordering limit).Accounted input.tree input.registry
      ((k.finalize ordering limit).references input.tree input.registry
        (k.finalize ordering limit).registered) (· = ·) := by
  have hlog := (ht.finalize ordering limit).accounted (hk.filled.finalize ordering limit)
    fun value hvalue => hk.holds_finalize ordering limit hvalue
  refine hlog.mono fun p hits heq => ?_
  rw [heq, (hk.log_perm ordering limit).countP_eq]

/-- Every entry was met. -/
theorem Merging.met (hk : Merging input.tree input.registry w.shapes rank w.module k) :
    (∀ s ∈ (k.finalize ordering limit).strings.liveNames, .string s ∈ w.log) ∧
      ∀ id ∈ (k.finalize ordering limit).survivors, ∃ value ∈ w.log, value.node? = some id := by
  refine ⟨fun s hs => ?_, fun id hid => w.exists_mem_log (hk.hasNode_of_mem_survivors ordering limit hid)⟩
  have hname := (UniqueTable.liveNames_sublist _).subset hs
  rw [(sameTables_finalize k input.tree input.registry ordering limit).strings.names,
    hk.sameNames.strings, w.logged.strings.names, List.mem_eraseDups] at hname
  obtain ⟨value, hvalue, hstring⟩ := List.mem_filterMap.mp hname
  cases value with
  | string other => exact Option.some.inj hstring ▸ hvalue
  | null | boolean _ | number _ | array _ | object _ => simp [Value.string?] at hstring

/-- As long as nothing is merged, all nodes are written, and so are all references. -/
theorem Trace.accounted_finalized (w : Trace input) :
    w.finalized.Accounted input.tree input.registry
      (w.finalized.references input.tree input.registry w.finalized.survivors)
      fun hits references => hits = references ∧ 0 < references := by
  have hk : Merging input.tree input.registry w.shapes w.rank w.module w.module := w.merging_self
  have hf := hk.filled.finalize input.config.ordering input.config.inlineLimit
  have haccounted := hk.accounted input.config.ordering input.config.inlineLimit w.logged.tallied
  have hperm := hk.log_perm input.config.ordering input.config.inlineLimit
  obtain ⟨hstrings, hnodes⟩ := hk.met input.config.ordering input.config.inlineLimit
  have hsurvivors : w.finalized.registered.Perm w.finalized.survivors := by
    refine (List.perm_ext_iff_of_nodup hf.nodup_registered
      (hf.nodup_registered.sublist (survivors_sublist _))).mpr fun id => ?_
    refine ⟨fun hid => ?_, fun hid => (survivors_sublist _).subset hid⟩
    exact hf.mem_survivors.mpr (w.repOf_finalized (w.hasNode_finalized.mp (hf.mem_registered.mp hid)))
  have hreferences : (w.finalized.references input.tree input.registry w.finalized.registered).Perm
      (w.finalized.references input.tree input.registry w.finalized.survivors) :=
    (hsurvivors.flatMap_right _).cons _
  refine ⟨fun s hs => ?_, fun id hid => ?_⟩
  · refine ⟨(haccounted.strings s hs).trans (hreferences.countP_eq _), ?_⟩
    exact List.count_pos_iff.mpr ((hperm.trans hreferences).mem_iff.mp (hstrings s hs))
  · refine ⟨(haccounted.nodes id hid).trans (hreferences.countP_eq _), ?_⟩
    obtain ⟨value, hvalue, hnode⟩ := hnodes id hid
    refine List.countP_pos_iff.mpr ⟨value, (hperm.trans hreferences).mem_iff.mp hvalue, ?_⟩
    rw [hnode, Option.bind_some, decide_eq_true_eq]
    exact hf.mem_survivors.mp hid

end Finalized

/-! ### Merged nodes

A reference that the walk met may stand in a node that was merged away. The survivor of that node
has a reference in the same slot, to the same string or to a member of the same class. -/

/-- Two nodes look the same, and so does everything below them. -/
def LooksLike (tree : Tree) (registry : Registry) (x y : NodeId) : Prop :=
  ∃ rel, Tree.Corresponding tree tree registry rel ∧ rel x y

namespace Thinned

variable {w : Trace input} {minUses : Nat} (d : Thinned w minUses)

/-- The module that is written. -/
def finalized : Module := d.merged.finalize input.config.ordering input.config.inlineLimit

/-- Where the walk met a reference, a node that is written refers to the same class. -/
theorem exists_alike {value : Value} (hvalue : value ∈ w.log) :
    ∃ value' ∈ d.finalized.references input.tree input.registry d.finalized.survivors,
      Tree.Alike d.SameClass value value' := by
  rcases w.mem_log.mp hvalue with rfl | ⟨parent, hparent, hslot⟩
  · refine ⟨input.tree.root, ?_, ?_⟩
    · rw [references, finalized, d.merging.root_finalize]
      exact List.mem_cons_self
    · cases hroot : input.tree.root with
      | null | boolean _ | number _ | string _ => exact .plain rfl
      | array id => exact .array (d.sameClass_self (w.hasNode_root (by rw [hroot]; rfl)))
      | object id => exact .object (d.sameClass_self (w.hasNode_root (by rw [hroot]; rfl)))
  · -- the node that survives for the parent has an alike value in the same slot
    obtain ⟨rep, hrep, hnode, hnumber⟩ := d.merging.rep parent hparent
    have hself : rep ∈ d.finalized.survivors :=
      (d.merging.mem_survivors _ _).mpr (d.merging.filled.repOf_repOf hrep)
    obtain ⟨value', hvalue', halike⟩ := exists_right_of_forall₂
      (d.corresponding parent rep ⟨hparent, hnode, hnumber.symm⟩).slots hslot
    exact ⟨value', List.mem_cons_of_mem _ (List.mem_flatMap.mpr ⟨rep, hself, hvalue'⟩), halike⟩

theorem usesOf_finalized (hid : id ∈ d.finalized.survivors) :
    d.finalized.usesOf (input.tree.shape? input.registry id) id =
      d.merged.usesOf (input.tree.shape? input.registry id) id := by
  have hrep := (d.merging.mem_survivors _ _).mp hid
  have hsame := (sameTables_finalize d.merged input.tree input.registry input.config.ordering
    input.config.inlineLimit).repOf
  have hafter := (d.tallied.finalize input.config.ordering input.config.inlineLimit).usesOf_eq
    (d.merging.filled.finalize _ _) (fun value hvalue => d.merging.holds_finalize _ _ hvalue)
    ((hsame id).trans hrep)
  have hbefore := d.tallied.usesOf_eq d.merging.filled
    (fun value hvalue => d.merging.grows.holds (w.holds_of_mem_log hvalue)) hrep
  rw [finalized, hafter, hbefore, referencesTo, referencesTo, funext hsame]

/-- A string is referred to from a node that is written. -/
theorem string_referenced {s : String} (hs : s ∈ d.finalized.strings.liveNames) :
    0 < (d.finalized.references input.tree input.registry d.finalized.survivors).count (.string s) := by
  obtain ⟨value, hvalue, halike⟩ := d.exists_alike ((d.merging.met _ _).1 s hs)
  cases halike with
  | plain _ => exact List.count_pos_iff.mpr hvalue

/-- A node is referred to from a node that is written, or there is another one of its class that
is, and both are used too rarely to be merged. -/
theorem node_referenced (hid : id ∈ d.finalized.survivors) :
    0 < d.finalized.referencesTo input.tree input.registry id
        (d.finalized.references input.tree input.registry d.finalized.survivors) ∨
      ∃ other ∈ d.finalized.survivors, other ≠ id ∧ LooksLike input.tree input.registry id other ∧
        d.finalized.usesOf (input.tree.shape? input.registry id) id +
          d.finalized.usesOf (input.tree.shape? input.registry other) other < minUses := by
  have hrepOf := (sameTables_finalize d.merged input.tree input.registry input.config.ordering
    input.config.inlineLimit).repOf
  obtain ⟨met, hmet, hnode⟩ := (d.merging.met _ _).2 id hid
  obtain ⟨value, hvalue, halike⟩ := d.exists_alike hmet
  obtain ⟨child, hchild, hclass⟩ : ∃ child, value.node? = some child ∧ d.SameClass id child := by
    cases halike with
    | plain hplain => simp [hplain] at hnode
    | array hclass => exact ⟨_, rfl, Option.some.inj hnode ▸ hclass⟩
    | object hclass => exact ⟨_, rfl, Option.some.inj hnode ▸ hclass⟩
  obtain ⟨other, hother, hotherNode, hnumber⟩ := d.merging.rep child hclass.2.1
  by_cases heq : other = id
  · refine .inl (List.countP_pos_iff.mpr ⟨value, hvalue, ?_⟩)
    rw [hchild, Option.bind_some, decide_eq_true_eq, ← heq]
    exact (hrepOf child).trans hother
  · have hsame : d.SameClass id other := hclass.trans ⟨hclass.2.1, hotherNode, hnumber.symm⟩
    have hself := d.merging.filled.repOf_repOf hother
    have hmem : other ∈ d.finalized.survivors := (d.merging.mem_survivors _ _).mpr hself
    refine .inr ⟨other, hmem, heq, ⟨_, d.corresponding, hsame⟩, ?_⟩
    rw [d.usesOf_finalized hid, d.usesOf_finalized hmem]
    exact d.usesOf_add_lt hsame.1 hsame.2.1 hsame.2.2 (Ne.symm heq)
      ((d.merging.mem_survivors _ _).mp hid) hself

end Thinned

/-! ### Built modules

All of this for what `build` returns, with and without deduplication. -/

/-- What the hits of a module say about its references. -/
structure Explained (m : Module) (tree : Tree) (registry : Registry) (config : EncodingConfig) :
    Prop where
  /-- Hits are the references from the root and from all nodes, merged or not. -/
  counted : m.Accounted tree registry (m.references tree registry m.registered) (· = ·)
  /-- They bound the references that are written. -/
  bounded : m.Accounted tree registry (m.references tree registry m.survivors)
    fun hits references => references ≤ hits
  /-- They stay in range if there are no more slots in use than that. -/
  in_range : (tree.slotsInUse registry).length < UInt32.size → m.HitsFit
  /-- Without deduplication they are the references that are written, of which there are some. -/
  unmerged : config.dedupe = false →
    m.Accounted tree registry (m.references tree registry m.survivors)
      fun hits references => hits = references ∧ 0 < references
  /-- Some reference to every string is written. -/
  strings : ∀ s ∈ m.strings.liveNames,
    0 < (m.references tree registry m.survivors).count (.string s)
  /-- Some reference to every node is written, unless it looks like another one, and the two
  together are used too rarely to be merged. -/
  nodes : ∀ id ∈ m.survivors,
    0 < m.referencesTo tree registry id (m.references tree registry m.survivors) ∨
      config.dedupe = true ∧ ∃ other ∈ m.survivors, other ≠ id ∧ LooksLike tree registry id other ∧
        m.usesOf (tree.shape? registry id) id + m.usesOf (tree.shape? registry other) other <
          config.dedupeMinUses

theorem Accounted.bounded
    (h : m.Accounted tree registry (m.references tree registry m.registered) (· = ·)) :
    m.Accounted tree registry (m.references tree registry m.survivors)
      fun hits references => references ≤ hits := by
  have hsublist : (m.references tree registry m.survivors).Sublist
      (m.references tree registry m.registered) :=
    ((survivors_sublist m).flatMap (tree.slots registry)).cons_cons m.root
  refine h.mono fun p hits heq => ?_
  rw [heq]
  exact hsublist.countP_le

/-- Whatever the configuration, the hits of a built module are explained by its references. -/
theorem explained_of_build {description : RegistryDescription} {config : EncodingConfig}
    (hregistry : description.build = .ok registry) (h : build tree registry config = .ok m) :
    m.Explained tree registry config := by
  have hr := RegistryDescription.valid_of_build hregistry
  obtain ⟨⟨walked, postOrder⟩, hwalk, h₁⟩ := bind_eq_ok.mp h
  obtain ⟨w, rfl, rfl⟩ := WalkInput.exists_trace hr hwalk
  cases hdedupe : config.dedupe with
  | false =>
      simp only [hdedupe] at h₁
      obtain rfl := Except.ok.inj h₁
      have hk : Merging tree registry w.shapes w.rank w.module w.module := w.merging_self
      have hcounted := hk.accounted config.ordering config.inlineLimit w.logged.tallied
      have hwritten := w.accounted_finalized
      have htallied := w.logged.tallied.finalize config.ordering config.inlineLimit
      exact ⟨hcounted, hcounted.bounded, fun hslots => htallied.hitsFit (w.log_perm.length_eq ▸ hslots),
        fun _ => hwritten, fun s hs => (hwritten.strings s hs).2,
        fun id hid => .inl (hwritten.nodes id hid).2⟩
  | true =>
      simp only [hdedupe, if_true] at h₁
      obtain ⟨⟨_, merged⟩, hmerge, h₂⟩ := bind_eq_ok.mp h₁
      obtain ⟨d, rfl⟩ := w.exists_thinned hmerge
      obtain rfl := Except.ok.inj h₂
      have hcounted := d.merging.accounted config.ordering config.inlineLimit d.tallied
      have htallied := d.tallied.finalize config.ordering config.inlineLimit
      exact ⟨hcounted, hcounted.bounded, fun hslots => htallied.hitsFit (w.log_perm.length_eq ▸ hslots),
        fun hnot => by simp [hdedupe] at hnot,
        fun s hs => d.string_referenced hs,
        fun id hid => (d.node_referenced hid).imp_right fun hother => ⟨hdedupe, hother⟩⟩

theorem explained_twoChains : RegistryDescription.pairs.build = .ok .pairs ∧
    ∃ m, build (.twoChains ⟨3⟩) .pairs { dedupe := true } = .ok m ∧
      m.Explained (.twoChains ⟨3⟩) .pairs { dedupe := true } := by
  have hsome : (build (.twoChains ⟨3⟩) .pairs { dedupe := true }).toOption.isSome = true := by
    decide +kernel
  obtain ⟨m, hm⟩ := Option.isSome_iff_exists.mp hsome
  have h := eq_ok_of_toOption hm
  exact ⟨Registry.build_pairs, m, h, explained_of_build Registry.build_pairs h⟩

/-- What a built module says of a node: whether it was merged away, its hits and how often it is
referred to from the nodes that are written. -/
def account (m : Module) (tree : Tree) (registry : Registry) (id : NodeId) : Bool × Nat × Nat :=
  (decide (id ∈ m.survivors), m.usesOf (tree.shape? registry id) id,
    m.referencesTo tree registry id (m.references tree registry m.survivors))

/-- Merging the first two pairs leaves the one after them with two hits and one reference. If
three uses are needed to merge a class, it leaves one of the last two pairs with a hit and no
reference. -/
theorem hits_ne_references : RegistryDescription.pairs.build = .ok .pairs ∧
    (Tree.findCycle (.twoChains ⟨3⟩) = none ∧
      ∃ m, build (.twoChains ⟨3⟩) .pairs { dedupe := true } = .ok m ∧
        m.account (.twoChains ⟨3⟩) .pairs ⟨3⟩ = (true, 2, 1)) ∧
    (Tree.findCycle (.twoChains ⟨4⟩) = none ∧
      ∃ m, build (.twoChains ⟨4⟩) .pairs { dedupe := true, dedupeMinUses := 3 } = .ok m ∧
        m.account (.twoChains ⟨4⟩) .pairs ⟨4⟩ = (true, 1, 0)) := by
  have hshared : (build (.twoChains ⟨3⟩) .pairs { dedupe := true }).toOption.map
      (·.account (.twoChains ⟨3⟩) .pairs ⟨3⟩) = some (true, 2, 1) := by decide +kernel
  have hcopied : (build (.twoChains ⟨4⟩) .pairs { dedupe := true, dedupeMinUses := 3 }).toOption.map
      (·.account (.twoChains ⟨4⟩) .pairs ⟨4⟩) = some (true, 1, 0) := by decide +kernel
  obtain ⟨shared, hbuildShared, haccountShared⟩ := Option.map_eq_some_iff.mp hshared
  obtain ⟨copied, hbuildCopied, haccountCopied⟩ := Option.map_eq_some_iff.mp hcopied
  exact ⟨Registry.build_pairs,
    ⟨by decide, shared, eq_ok_of_toOption hbuildShared, haccountShared⟩,
    ⟨by decide, copied, eq_ok_of_toOption hbuildCopied, haccountCopied⟩⟩

end Module

end SyntaxPack
