import SyntaxPack.Proofs.Encode.Deduped
/-!
# SyntaxPack.Proofs.Encode.Survivors

The tables after deduplication.

One node survives for all nodes of a class, and a class is all that the encoder sees of its
members: they have the same kind, the same shape and, slot by slot, children of the same
classes. The tables list the survivors. Members of a class are never below one another,
so the one that is left first was also met first, and a table lists the survivors in the order
in which their classes were met (`Deduped.filter_eraseDups`).
-/

namespace SyntaxPack

namespace Module

variable {tree : Tree} {registry : Registry} {m : Module} {rank : NodeId → Nat} {shape : ShapeId}
  {elements : List Value}

/-! ### Keys

The class of a node is found by its key: what the encoder writes for it, with the numbers of classes
in place of children. So nodes have one key exactly if they look the same up to classes. -/

theorem keyOf_array {id : NodeId} (h : tree.array? id = some elements) :
    m.keyOf tree registry rank id =
      (m.elementTag? id).map fun tag => .array tag (elements.map (atomOf rank)) := by
  rw [keyOf, Tree.array?_eq_some_iff.mp h]

theorem keyOf_object {id : NodeId} (h : tree.shape? registry id = some shape) :
    m.keyOf tree registry rank id =
      some (.object shape ((tree.slots registry id).map (atomOf rank))) := by
  obtain ⟨object, hobject, hlookup⟩ := Tree.shape?_eq_some_iff.mp h
  rw [Tree.slots_of_object hobject hlookup, keyOf, Tree.object?_eq_some_iff.mp hobject]
  simp only [hlookup, Option.map_some]

/-- Values of one atom are alike up to the numbers of their nodes. -/
theorem alike_of_atomOf_eq {left right : Value} (h : atomOf rank left = atomOf rank right) :
    Tree.Alike (fun x y => rank x = rank y) left right := by
  cases left <;> cases right <;>
    simp only [atomOf, reduceCtorEq, Atom.boolean.injEq, Atom.number.injEq, Atom.string.injEq,
      Atom.array.injEq, Atom.object.injEq] at h
  · exact .plain rfl
  · exact h ▸ .plain rfl
  · exact h ▸ .plain rfl
  · exact h ▸ .plain rfl
  · exact .array h
  · exact .object h

/-- Nodes of one key look the same. -/
theorem sameSlots_of_keyOf_eq {x y : NodeId} {key : ClassKey}
    (hx : m.keyOf tree registry rank x = some key) (hy : m.keyOf tree registry rank y = some key) :
    Tree.SameSlots tree tree registry (fun x y => rank x = rank y) x y := by
  have hatoms := (atoms_of_keyOf hx).symm.trans (atoms_of_keyOf hy)
  have hslots := (forall₂_of_map_eq hatoms).imp fun _ _ heq => alike_of_atomOf_eq heq
  have hkind := kind_of_keyOf hx
  have hkind' := kind_of_keyOf hy
  cases hshape : key.shape? with
  | some shape =>
      simp only [hshape] at hkind hkind'
      exact .object hkind hkind' hslots
  | none =>
      simp only [hshape] at hkind hkind'
      obtain ⟨elements, helements⟩ := Option.isSome_iff_exists.mp hkind
      obtain ⟨others, hothers⟩ := Option.isSome_iff_exists.mp hkind'
      rw [Tree.slots_of_array helements, Tree.slots_of_array hothers] at hslots
      exact .array helements hothers hslots

/-- Values that are alike up to the numbers of their nodes have the same atoms. -/
theorem map_atomOf_eq {values others : List Value}
    (h : List.Forall₂ (Tree.Alike fun x y => rank x = rank y) values others) :
    values.map (atomOf rank) = others.map (atomOf rank) := by
  induction h with
  | nil => rfl
  | @cons left right values others hhead _ ih =>
      have hatom : atomOf rank left = atomOf rank right := by
        cases hhead with
        | plain hnode => rfl
        | array heq => exact congrArg Atom.array heq
        | object heq => exact congrArg Atom.object heq
      rw [List.map_cons, List.map_cons, hatom, ih]

/-- Nodes that look the same have one key, if arrays have one element tag. -/
theorem keyOf_eq_of_sameSlots {x y : NodeId}
    (h : Tree.SameSlots tree tree registry (fun x y => rank x = rank y) x y)
    (htag : (tree.array? x).isSome = true → m.elementTag? x = m.elementTag? y) :
    m.keyOf tree registry rank x = m.keyOf tree registry rank y := by
  cases h with
  | array hx hy hslots =>
      rw [keyOf_array hx, keyOf_array hy, htag (by rw [hx]; rfl), map_atomOf_eq hslots]
  | object hx hy hslots => rw [keyOf_object hx, keyOf_object hy, map_atomOf_eq hslots]

theorem Trace.elementTag?_eq {input : WalkInput} {other : Tree} {rel : NodeId → NodeId → Prop}
    {x y : NodeId} (w : Trace input) (w' : Trace (input.on other))
    (hc : Tree.Corresponding input.tree other input.registry rel) (hxy : rel x y)
    (hx : w.HasNode x) (hy : w'.HasNode y) (harray : (input.tree.array? x).isSome = true) :
    w'.module.elementTag? y = w.module.elementTag? x :=
  elementTag?_of_complete hc hxy (w.walked.complete x ((w.walked.mem_iff x).mpr hx))
    (w'.walked.complete y ((w'.walked.mem_iff y).mpr hy)) harray

/-- Registered nodes look the same up to a relation between registered nodes. -/
theorem Trace.corresponding_of_sameSlots {input : WalkInput} {other : Tree}
    {rel : NodeId → NodeId → Prop} (w : Trace input) (w' : Trace (input.on other))
    (h : ∀ x y, rel x y → w.HasNode x → Tree.SameSlots input.tree other input.registry rel x y) :
    Tree.Corresponding input.tree other input.registry
      fun x y => rel x y ∧ w.HasNode x ∧ w'.HasNode y := by
  rintro x y ⟨hxy, hx, hy⟩
  refine (h x y hxy hx).imp_of_mem fun left hleft right hright hlr => ?_
  cases hlr with
  | plain hnode => exact .plain hnode
  | array hab => exact .array ⟨hab, w.hasNode_slot hx hleft rfl, w'.hasNode_slot hy hright rfl⟩
  | object hab => exact .object ⟨hab, w.hasNode_slot hx hleft rfl, w'.hasNode_slot hy hright rfl⟩

namespace Grouped

variable {input : WalkInput} {w : Trace input} (d : Grouped w) {x y : NodeId}

/-! ### Classes

Being in one class is the coarsest relation under which nodes look the same, children and all. That
it is such a relation is `corresponding`; that there is none coarser,
`sameClass_of_corresponding`. -/

/-- Two nodes are in one class. -/
def SameClass (x y : NodeId) : Prop :=
  w.HasNode x ∧ w.HasNode y ∧ d.classes.number x = d.classes.number y

variable {d}

theorem SameClass.symm (h : d.SameClass x y) : d.SameClass y x := ⟨h.2.1, h.1, h.2.2.symm⟩

theorem SameClass.trans {z : NodeId} (h : d.SameClass x y) (h' : d.SameClass y z) :
    d.SameClass x z :=
  ⟨h.1, h'.2.1, h.2.2.trans h'.2.2⟩

variable (d)

theorem sameClass_self (hx : w.HasNode x) : d.SameClass x x := ⟨hx, hx, rfl⟩

theorem ranking : w.module.Ranking input.tree input.registry d.classes.number :=
  d.classified.ranking w.walked.nodup w.walked.mem_iff

/-- The class of a node is found by its key. -/
theorem exists_keyOf (hx : w.HasNode x) : ∃ key,
    w.module.keyOf input.tree input.registry d.classes.number x = some key ∧
      d.classes.keys[d.classes.number x]? = some key := by
  have hmem := (w.walked.mem_iff x).mpr hx
  obtain ⟨i, hi⟩ := Option.isSome_iff_exists.mp ((d.classified.isSome_iff x).mpr hmem)
  have hnumber : d.classes.number x = i := by rw [NodeClasses.number, hi, Option.getD_some]
  obtain ⟨key, hkey⟩ : ∃ key, d.classes.keys[i]? = some key :=
    ⟨_, List.getElem?_eq_getElem (NodeClasses.classOf?_lt hi)⟩
  exact ⟨key, (d.classified.keyOf_eq x i hi).trans hkey, hnumber ▸ hkey⟩

/-- Nodes of one key are in one class. -/
theorem sameClass_of_keyOf_eq (hx : w.HasNode x) (hy : w.HasNode y)
    (h : w.module.keyOf input.tree input.registry d.classes.number x =
      w.module.keyOf input.tree input.registry d.classes.number y) : d.SameClass x y := by
  obtain ⟨key, hkey, hget⟩ := d.exists_keyOf hx
  obtain ⟨key', hkey', hget'⟩ := d.exists_keyOf hy
  obtain rfl : key = key' := Option.some.inj (hkey.symm.trans (h.trans hkey'))
  obtain ⟨hlt, hi⟩ := List.getElem?_eq_some_iff.mp hget
  obtain ⟨hlt', hj⟩ := List.getElem?_eq_some_iff.mp hget'
  exact ⟨hx, hy, d.classified.nodup.getElem_inj_iff.mp (hi.trans hj.symm)⟩

/-- Members of a class look the same. -/
theorem corresponding :
    Tree.Corresponding input.tree input.tree input.registry d.SameClass := by
  rintro x y ⟨hx, hy, hnumber⟩
  obtain ⟨key, hkey, -⟩ := d.exists_keyOf hx
  have hkey' := (d.ranking.alike x y hx hy hnumber).symm.trans hkey
  refine (sameSlots_of_keyOf_eq hkey hkey').imp_of_mem fun left hleft right hright hlr => ?_
  cases hlr with
  | plain hnode => exact .plain hnode
  | array heq => exact .array ⟨w.hasNode_slot hx hleft rfl, w.hasNode_slot hy hright rfl, heq⟩
  | object heq => exact .object ⟨w.hasNode_slot hx hleft rfl, w.hasNode_slot hy hright rfl, heq⟩

/-- Nodes that look the same, as do their children and so on, are members of one class. -/
theorem sameClass_of_corresponding {rel : NodeId → NodeId → Prop}
    (hc : Tree.Corresponding input.tree input.tree input.registry rel)
    (hnode : ∀ x y, rel x y → w.HasNode x ∧ w.HasNode y) (hxy : rel x y) : d.SameClass x y := by
  induction hn : d.classes.number x using Nat.strongRecOn generalizing x y with
  | _ n ih =>
      obtain ⟨hx, hy⟩ := hnode x y hxy
      -- the children of a node have smaller numbers
      have hslots : Tree.SameSlots input.tree input.tree input.registry
          (fun a b => d.classes.number a = d.classes.number b) x y := by
        refine (hc x y hxy).imp_of_mem fun left hleft right _ hlr => ?_
        have hchild : ∀ a b, left.node? = some a → rel a b → d.classes.number a = d.classes.number b :=
          fun a b ha hab => (ih _ (hn ▸ d.ranking.child_lt x hx left hleft a ha) hab rfl).2.2
        cases hlr with
        | plain hplain => exact .plain hplain
        | array hab => exact .array (hchild _ _ rfl hab)
        | object hab => exact .object (hchild _ _ rfl hab)
      exact d.sameClass_of_keyOf_eq hx hy (keyOf_eq_of_sameSlots hslots fun harray =>
        (w.elementTag?_eq w hc hxy hx hy harray).symm)

end Grouped

namespace Deduped

variable {input : WalkInput} {w : Trace input} (d : Deduped w) {x y : NodeId}

/-! ### Survivors

`first` is the node that a handle leads to once the members of its class are merged. It is itself a
member, it is the one that was left first, and it survives for itself. -/

/-- The node that survives for a node. -/
def first (id : NodeId) : NodeId := (d.merged.repOf input.tree input.registry id).getD id

/-- The table leads from a node to the one that survives for it. -/
theorem repOf_eq (hx : w.HasNode x) :
    d.merged.repOf input.tree input.registry x = some (d.first x) := by
  obtain ⟨y, hy, -⟩ := d.rep x hx
  rw [first, hy, Option.getD_some]

theorem sameClass_first (hx : w.HasNode x) : d.SameClass (d.first x) x := by
  obtain ⟨y, hy, hnode, hnumber, -⟩ := d.rep x hx
  rw [first, hy, Option.getD_some]
  exact ⟨hnode, hx, hnumber⟩

variable {d}

/-- No member of a class is left before the one that survives. -/
theorem rank_first_le (h : d.SameClass x y) : w.rank (d.first x) ≤ w.rank y := by
  obtain ⟨z, hz, -, -, hfirst⟩ := d.rep x h.1
  rw [first, hz, Option.getD_some]
  exact hfirst y h.2.1 h.2.2.symm

/-- One node survives for a class. -/
theorem first_eq_first (h : d.SameClass x y) : d.first x = d.first y := by
  have hx := d.sameClass_first h.1
  have hy := d.sameClass_first h.2.1
  refine w.rank_inj hx.1 (Nat.le_antisymm ?_ ?_)
  · exact rank_first_le (h.trans hy.symm)
  · exact rank_first_le (h.symm.trans hx.symm)

variable (d)

/-- A survivor survives for itself. -/
theorem first_first (hx : w.HasNode x) : d.first (d.first x) = d.first x :=
  first_eq_first (d.sameClass_first hx)

/-- Nodes are in one class if and only if the same node survives for them. -/
theorem first_eq_iff (hx : w.HasNode x) (hy : w.HasNode y) :
    d.first x = d.first y ↔ d.SameClass x y := by
  refine ⟨fun h => ?_, first_eq_first⟩
  exact (d.sameClass_first hx).symm.trans (h ▸ d.sameClass_first hy)

/-- A survivor was opened before all other members of its class. -/
theorem pairwise_opened : w.opened.Pairwise fun x y => ¬ (d.SameClass x y ∧ d.first x = y ∧ x ≠ y) := by
  have hdescends := Trace.descends d.ranking
  have hroot : Visits.Below w.HasNode d.classes.number input.tree.size [input.tree.root] :=
    Visits.below_cons.mpr ⟨fun id hid => ⟨w.hasNode_root hid, d.ranking.lt_size id (w.hasNode_root hid)⟩,
      by simp [Visits.Below]⟩
  refine (w.visits.pairwise_opened hdescends hroot w.walked.nodup).imp ?_
  rintro x y hlater ⟨hclass, rfl, hne⟩
  have hle : w.rank (d.first x) ≤ w.rank x := rank_first_le (d.sameClass_self hclass.1)
  rcases hlater with hlt | hlt
  · exact Nat.ne_of_lt hlt hclass.2.2.symm
  · exact Nat.lt_irrefl _ (Nat.lt_of_lt_of_le hlt hle)

/-! ### Tables

The live entries of a table are the survivors among what was added to it. Listed in the order of
insertion they stand in the order in which their classes were first met. -/

/-- The survivors among nodes that are selected by class come in the order in which their
classes were met. -/
theorem filter_eraseDups {f : Value → Option NodeId} {p : NodeId → Bool}
    (hf : ∀ value ∈ w.log, f value = value.node?.filter p)
    (hp : ∀ x y, d.SameClass x y → p x = p y) :
    (w.log.filterMap f).eraseDups.filter (fun x => d.first x = x) =
      ((w.log.filterMap f).map d.first).eraseDups := by
  have hlog : w.log.filterMap f = (w.log.filterMap Value.node?).filter p := by
    rw [List.filterMap_congr hf, List.filter_filterMap]
  have hselected : (w.log.filterMap f).eraseDups = w.opened.filter p := by
    rw [hlog, Firsts.eraseDups_filter, w.opened_eq]
  have hnodup : (w.opened.filter p).Nodup := w.nodup_opened.sublist List.filter_sublist
  have hnode : ∀ x ∈ w.opened.filter p, w.HasNode x := fun x hx =>
    w.mem_opened.mp (List.mem_of_mem_filter hx)
  have hfirsts := Firsts.filter_eraseDups_of_first (l := w.opened.filter p) d.first
    (fun x hx => d.first_first (hnode x hx)) fun before x after hsplit => by
      by_cases heq : d.first x = x
      · exact Or.inl heq
      · refine Or.inr ?_
        have hmem : x ∈ w.opened.filter p := by simp [hsplit]
        have hclass := d.sameClass_first (hnode x hmem)
        have hfirst : d.first x ∈ before ++ x :: after := by
          rw [← hsplit, List.mem_filter]
          exact ⟨w.mem_opened.mpr hclass.1, (hp _ _ hclass).trans (List.mem_filter.mp hmem).2⟩
        rcases List.mem_append.mp hfirst with hbefore | hlater
        · exact hbefore
        · -- the survivor was opened before
          have hpairwise := d.pairwise_opened.sublist (List.filter_sublist (p := p))
          rw [hsplit] at hpairwise
          have hafter := (List.mem_cons.mp hlater).resolve_left heq
          have hnot := List.rel_of_pairwise_cons (List.pairwise_append.mp hpairwise).2.1 hafter
          exact absurd ⟨hclass.symm, rfl, Ne.symm heq⟩ hnot
  have hsame : (w.log.filterMap f).eraseDups = (w.opened.filter p).eraseDups := by
    rw [hselected, Firsts.eraseDups_of_nodup hnodup]
  rw [Firsts.eraseDups_map_congr hsame, ← hfirsts, hsame]

/-- The module that is written. -/
def finalized : Module := d.merged.finalize input.config.ordering input.config.inlineLimit

theorem hasNode_finalized :
    d.finalized.HasNode input.tree input.registry x ↔ w.HasNode x :=
  (d.merging.finalize _ _).1 x

theorem repOf_finalized (hx : w.HasNode x) :
    d.finalized.repOf input.tree input.registry x = some (d.first x) := by
  have hs := sameTables_finalize d.merged input.tree input.registry input.config.ordering
    input.config.inlineLimit
  rw [finalized, hs.repOf, d.repOf_eq hx]

theorem located (hr : input.registry.Valid) :
    Located input w.shapes d.classes.number d.finalized :=
  w.walked.located hr d.ranking.alike d.merging.toMergedFrom

theorem first_of_indexed (hr : input.registry.Valid) (hx : d.finalized.Indexed x) :
    d.first x = x := by
  obtain ⟨hnode, hrep⟩ := (d.located hr).repOf_of_indexed hx
  have hfirst := d.repOf_finalized (d.hasNode_finalized.mp hnode)
  exact Option.some.inj (hfirst.symm.trans hrep)

theorem built (hr : input.registry.Valid) : Built input w.shapes d.classes.number d.finalized :=
  ⟨d.located hr, fun _ => d.ranking.congr (fun _ => d.hasNode_finalized) (d.merging.finalize _ _).2⟩

/-- Strings are not merged. -/
theorem keys_strings : d.finalized.strings.keys = w.finalized.strings.keys := by
  have hstrings := d.merging.sameNames.strings
  unfold finalized Trace.finalized finalize
  simp only [hstrings]

theorem shapes_finalized : d.finalized.objects.shapes = w.module.objects.shapes := by
  rw [← d.merging.sameNames.shapes]
  simp [finalized, finalize, ObjectTables.shapes, Function.comp_def]

/-- A table of the survivors of what was added to it. -/
theorem keys_of_names {t : UniqueTable NodeId} {f : Value → Option NodeId} {p : NodeId → Bool}
    (hv : t.Valid) (horder : t.order = none) (hnames : t.names = (w.log.filterMap f).eraseDups)
    (hf : ∀ value ∈ w.log, f value = value.node?.filter p)
    (hp : ∀ x y, d.SameClass x y → p x = p y)
    (hrep : ∀ x ∈ w.log.filterMap f, t.rep x = some (d.first x)) :
    (t.finalize .insertion fun _ => true).keys = ((w.log.filterMap f).map d.first).eraseDups := by
  rw [hv.keys_insertion horder, hnames, ← d.filter_eraseDups hf hp]
  refine List.filter_congr fun x hx => ?_
  rw [hrep x (List.mem_eraseDups.mp hx)]
  simp

/-- The arrays that are listed are the survivors of the arrays that were met, in that order. -/
theorem keys_arrays (hordering : input.config.ordering = .insertion) :
    d.finalized.arrays.keys = ((w.log.filterMap Value.array?).map d.first).eraseDups := by
  have hkeys : d.finalized.arrays.keys =
      (d.merged.arrays.finalize input.config.ordering fun _ => true).keys := rfl
  have hnames : d.merged.arrays.names = (w.log.filterMap Value.array?).eraseDups :=
    d.merging.sameNames.arrays.trans w.logged.arrays.names
  rw [hkeys, hordering]
  refine d.keys_of_names (p := fun x => (input.tree.array? x).isSome) d.merging.filled.arrays
    d.merging.building.arrays hnames (fun value hvalue => ?_) (fun x y hxy => ?_) fun x hx => ?_
  · have hholds := w.holds_of_mem_log hvalue
    cases value with
    | null | boolean _ | number _ | string _ => rfl
    | array id => simp [Value.array?, Value.node?, Option.filter_some, hholds.1]
    | object id =>
        obtain ⟨shape, hshape, -⟩ := hholds
        simp [Value.array?, Value.node?, Option.filter_some, Tree.array?_eq_none_of_shape hshape]
  · exact (d.corresponding x y hxy).isSome_array?_eq.symm
  · obtain ⟨value, hvalue, harray⟩ := List.mem_filterMap.mp hx
    cases value with
    | null | boolean _ | number _ | string _ | object _ => simp [Value.array?] at harray
    | array id =>
        obtain rfl := Option.some.inj harray
        rw [← repOf_array (w.holds_of_mem_log hvalue).1]
        exact d.repOf_eq (w.hasNode_of_mem_log hvalue rfl)

/-- Unless objects are written in place, all survivors of a shape are listed. -/
theorem keys_objects (hordering : input.config.ordering = .insertion)
    (hinline : input.config.inlineObjects = false) {t : UniqueTable NodeId}
    (ht : d.finalized.objects.table? shape = some t) :
    t.keys = ((input.objectsOf shape w.log).map d.first).eraseDups := by
  rw [finalized, table?_finalize] at ht
  obtain ⟨u, hu, rfl⟩ := Option.map_eq_some_iff.mp ht
  have hkept : keptFor input.config.inlineLimit = fun _ => true := by
    rw [EncodingConfig.inlineLimit, hinline]
    rfl
  have hsame := d.merging.sameNames.objects shape
  rw [hu, Option.map_some] at hsame
  obtain ⟨v, hv, hnames⟩ := Option.map_eq_some_iff.mp hsame.symm
  rw [hordering, hkept]
  refine d.keys_of_names
    (p := fun x => (input.tree.shape? input.registry x).any fun own =>
      !input.config.partitionedTables || own = shape) (d.merging.filled.objects shape u hu)
    (d.merging.building.objects shape u hu) (hnames.symm.trans (w.logged.objects shape v hv).names)
    (fun value hvalue => ?_) (fun x y hxy => ?_) fun x hx => ?_
  · have hholds := w.holds_of_mem_log hvalue
    cases value with
    | null | boolean _ | number _ | string _ => rfl
    | array id =>
        have hnone : input.tree.shape? input.registry id = none := Tree.shape?_eq_none_of_array hholds.1
        simp [Tree.tabled?, Value.object?, Value.node?, Option.filter_some, hnone]
    | object id =>
        obtain ⟨own, hown, -⟩ := hholds
        simp [Tree.tabled?, Value.object?, Value.node?, Option.filter_some, hown]
  · rw [(d.corresponding x y hxy).shape?_eq]
  · obtain ⟨hlog, htable⟩ := Logged.mem_objectsOf.mp hx
    obtain ⟨own, hown, -⟩ := w.holds_of_mem_log hlog
    have htogether : d.merged.objects.Together shape own := by
      refine htable.imp (fun hshared => ?_) fun hshape => Option.some.inj (hshape.symm.trans hown)
      exact (d.merging.grows.partitioned.trans w.logged.partitioned).trans hshared
    have hrep := d.repOf_eq (w.hasNode_of_mem_log hlog rfl)
    rw [repOf_object hown, ← ObjectTables.table?_congr htogether, hu, Option.bind_some] at hrep
    exact hrep

end Deduped

end Module

end SyntaxPack
