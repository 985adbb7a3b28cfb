import SyntaxPack.Proofs.Encode.Deduped
/-!
# SyntaxPack.Proofs.Encode.Dedupable

Deduplication never fails.

A node is classified after the nodes that it leads to, since the walk has left these before it,
so every lookup of a class finds one. Merging asks for two different entries that both
survive. A member of a class that is not merged yet survives as itself, and so does the first
one, as long as classes are merged one after another. Both parts assume only that a walk has
come to its end and that no node in use leads back to itself.
-/

namespace SyntaxPack

/-! ### Merging entries -/

/-- Two entries that are different after redirection can be merged. -/
theorem Table.dedupeHandles_ok {κ ν : Type} [EntryName κ] {t : Table κ ν} {source target : Handle}
    (horder : t.order = none) (hsource : t.IsLive (t.resolve source))
    (hne : t.resolve source ≠ t.resolve target) : ∃ t', t.dedupeHandles source target = .ok t' := by
  obtain ⟨merged, hmerged, -⟩ := hsource
  unfold dedupeHandles
  rw [show t.ensureBuilding = .ok () from ensureBuilding_eq_ok.mpr horder, ok_bind]
  simp only [hmerged, if_neg hne]
  exact ⟨_, rfl⟩

/-- Names for which different names survive can be merged. -/
theorem UniqueTable.Valid.dedupe_ok {κ : Type} [DecidableEq κ] [EntryName κ] {t : UniqueTable κ}
    {x y a b : κ} (hv : t.Valid) (horder : t.order = none) (hx : t.rep x = some a)
    (hy : t.rep y = some b) (hne : a ≠ b) : ∃ t', t.dedupe x y = .ok t' := by
  obtain ⟨source, hsource, ha⟩ := hv.liveAt_of_rep hx
  obtain ⟨target, htarget, hb⟩ := hv.liveAt_of_rep hy
  have hdifferent : t.resolve source ≠ t.resolve target := by
    rw [ha.live.resolve_eq, hb.live.resolve_eq]
    intro heq
    exact hne (ha.name_inj (heq ▸ hb))
  obtain ⟨t', ht'⟩ := Table.dedupeHandles_ok horder (ha.live.resolve_eq.symm ▸ ha.live) hdifferent
  exact ⟨t', bind_eq_ok.mpr ⟨source, Table.require_eq_ok.mpr hsource,
    bind_eq_ok.mpr ⟨target, Table.require_eq_ok.mpr htarget, ht'⟩⟩⟩

namespace Module

variable {tree : Tree} {registry : Registry} {shapes : List ShapeId} {m m' : Module}
  {rank : NodeId → Nat} {source target id : NodeId} {shape : ShapeId} {classes : NodeClasses}

section

variable (hf : Filled tree registry shapes m) (hb : m.Building)
  (hsource : m.repOf tree registry source = some source)
  (htarget : m.repOf tree registry target = some target) (hne : source ≠ target)
include hf hb hsource htarget hne

theorem Filled.dedupeArray_ok (harray : (tree.array? source).isSome = true)
    (harray' : (tree.array? target).isSome = true) : ∃ m', m.dedupeArray source target = .ok m' := by
  rw [repOf_array harray] at hsource
  rw [repOf_array harray'] at htarget
  obtain ⟨arrays, harrays⟩ := hf.arrays.dedupe_ok hb.arrays hsource htarget hne
  exact ⟨_, bind_eq_ok.mpr ⟨arrays, harrays, rfl⟩⟩

theorem Filled.dedupeObject_ok (hshape : tree.shape? registry source = some shape)
    (hshape' : tree.shape? registry target = some shape) :
    ∃ m', m.dedupeObject registry shape source target = .ok m' := by
  rw [repOf_object hshape] at hsource
  rw [repOf_object hshape'] at htarget
  obtain ⟨t, ht, hrep⟩ := Option.bind_eq_some_iff.mp hsource
  rw [ht, Option.bind_some] at htarget
  obtain ⟨merged, hmerged⟩ := (hf.objects shape t ht).dedupe_ok (hb.objects shape t ht) hrep htarget hne
  have hown : m.objects.tableOrEmpty registry shape = t := by
    rw [ObjectTables.tableOrEmpty, ht, Option.getD_some]
  obtain ⟨objects, hobjects⟩ := @ObjectTables.update_ok m.objects registry shape
    (·.dedupe source target) merged (hown.symm ▸ hmerged)
  exact ⟨_, bind_eq_ok.mpr ⟨objects, hobjects, rfl⟩⟩

end

/-! ### Merging classes -/

section Members

variable {c : NodeClass} {state : Nat × Module} (hc : IsClass tree registry m rank c)
  (hself : ∀ x ∈ c.members, state.2.repOf tree registry x = some x)
include hc hself

/-- A member that is not merged yet can be merged into the first one. -/
theorem MergedInto.mergeNode_ok {done : List NodeId} {k : Module}
    (h : MergedInto tree registry shapes rank m state.2 target done k) (htarget : target ∈ c.members)
    (hsource : source ∈ c.members) (hsourceNew : source ∉ done) (htargetNew : target ∉ done)
    (hne : source ≠ target) : ∃ k', mergeNode registry c.key.shape? k source target = .ok k' := by
  have hsourceSelf : k.repOf tree registry source = some source := by
    rw [h.repOf_eq source (hc.hasNode source hsource), if_neg hsourceNew, hself source hsource]
  have htargetSelf : k.repOf tree registry target = some target := by
    rw [h.repOf_eq target (hc.hasNode target htarget), if_neg htargetNew, hself target htarget]
  have hkind := kind_of_keyOf (hc.keyOf_eq source hsource)
  have hkindTarget := kind_of_keyOf (hc.keyOf_eq target htarget)
  cases hshape : c.key.shape? with
  | some shape =>
      simp only [hshape] at hkind hkindTarget
      exact h.filled.dedupeObject_ok h.building hsourceSelf htargetSelf hne hkind hkindTarget
  | none =>
      simp only [hshape] at hkind hkindTarget
      exact h.filled.dedupeArray_ok h.building hsourceSelf htargetSelf hne hkind hkindTarget

theorem Merging.mergeAll_ok (h : Merging tree registry shapes rank m state.2)
    (htarget : target ∈ c.members) {sources : List NodeId}
    (hsources : ∀ source ∈ sources, source ∈ c.members) (hnodup : (target :: sources).Nodup) :
    ∃ state', sources.foldlM (mergeMember registry c.key.shape? target) state = .ok state' := by
  cases hrun : sources.foldlM (mergeMember registry c.key.shape? target) state with
  | ok state' => exact ⟨state', rfl⟩
  | error e =>
      -- The members before the one that fails are merged, so that one can be merged, too.
      obtain ⟨done, s, rest, k, hsplit, hdone, hstep⟩ := foldlM_eq_error hrun
      rw [hsplit] at hsources hnodup
      obtain ⟨htargetNew, hdistinct⟩ := List.nodup_cons.mp hnodup
      have hbefore : (target :: done).Nodup :=
        hnodup.sublist ((List.sublist_append_left done (s :: rest)).cons_cons target)
      have hinto := h.mergeAll hc hself htarget
        (fun x hx => hsources x (List.mem_append_left _ hx)) hbefore hdone
      obtain ⟨k', hk'⟩ := hinto.mergeNode_ok hc hself htarget (hsources s (by simp))
        (fun hs => (List.nodup_append.mp hdistinct).2.2 s hs s List.mem_cons_self rfl)
        (fun ht => htargetNew (List.mem_append_left _ ht)) (fun heq => htargetNew (by simp [heq]))
      rw [mergeMember_eq_ok.mpr ⟨k', hk', rfl⟩] at hstep
      simp at hstep

/-- A class whose members survive as themselves can be merged. -/
theorem Merging.mergeClass_ok (h : Merging tree registry shapes rank m state.2) (minUses : Nat) :
    ∃ state', Module.mergeClass registry minUses state c = .ok state' := by
  simp only [Module.mergeClass]
  split
  · rename_i target source sources hmembers
    have hmem : ∀ x ∈ target :: source :: sources, x ∈ c.members := fun x hx => by
      rwa [← hmembers, List.mem_reverse] at hx
    have hnodup : (target :: source :: sources).Nodup := by
      rw [← hmembers]
      exact List.nodup_reverse.mpr hc.nodup
    split
    · exact ⟨state, rfl⟩
    · exact h.mergeAll_ok hc hself (hmem target List.mem_cons_self)
        (fun x hx => hmem x (List.mem_cons_of_mem target hx)) hnodup
  · exact ⟨state, rfl⟩

end Members

variable {input : WalkInput} {minUses : Nat}

theorem Grouped.mergeClasses_ok {w : Trace input} (g : Grouped w) (minUses : Nat) :
    ∃ state, g.classes.foldlM (Module.mergeClass input.registry minUses) (0, w.module) = .ok state := by
  cases hrun : g.classes.foldlM (Module.mergeClass input.registry minUses) (0, w.module) with
  | ok state => exact ⟨state, rfl⟩
  | error e =>
      obtain ⟨done, c, rest, k, hsplit, hdone, hstep⟩ := foldlM_eq_error hrun
      have hsome := g.mergedSome hsplit hdone
      have hc : c ∈ g.classes := by simp [hsplit]
      obtain ⟨k', hk'⟩ := hsome.merging.mergeClass_ok (g.isClass hc) (hsome.repOf_self hsplit) minUses
      rw [hstep] at hk'
      simp at hk'

/-! ### Classifying nodes -/

theorem atom_ok {value : Value}
    (h : ∀ child, value.node? = some child → (classes.classOf? child).isSome = true) :
    ∃ atom, classes.atom value = .ok atom := by
  have hclass : ∀ {child : NodeId}, (classes.classOf? child).isSome = true →
      ∃ number, classes.requireClass child = .ok number := by
    intro child hchild
    obtain ⟨number, hnumber⟩ := Option.isSome_iff_exists.mp hchild
    exact ⟨number, by simp only [NodeClasses.requireClass, hnumber]⟩
  cases value with
  | null | boolean _ | number _ | string _ => exact ⟨_, rfl⟩
  | array child | object child =>
      obtain ⟨number, hnumber⟩ := hclass (h child rfl)
      exact ⟨_, bind_eq_ok.mpr ⟨number, hnumber, rfl⟩⟩

/-- A node that is complete gets a key once the nodes that it leads to have classes. -/
theorem WalkInput.Complete.classKey_ok (h : input.Complete m id)
    (hid : m.HasNode input.tree input.registry id)
    (hchildren : ∀ child, input.tree.HasChild input.registry id child →
      (classes.classOf? child).isSome = true) :
    ∃ key, m.classKey input.tree input.registry classes id = .ok key := by
  obtain ⟨atoms, hatoms⟩ : ∃ atoms, (input.tree.slots input.registry id).mapM classes.atom = .ok atoms := by
    have hatom : ∀ value ∈ input.tree.slots input.registry id, ∃ atom, classes.atom value = .ok atom :=
      fun value hvalue => atom_ok fun child hchild => hchildren child ⟨value, hvalue, hchild⟩
    obtain ⟨atoms, hatoms⟩ := exists_forall₂ hatom
    exact ⟨atoms, mapM_eq_ok.mpr hatoms⟩
  unfold classKey
  rcases hid with ⟨harray, -⟩ | ⟨shape, hshape, -⟩
  · obtain ⟨elements, helements⟩ := Option.isSome_iff_exists.mp harray
    obtain ⟨-, tag, -, -, htag⟩ := h.array elements helements
    rw [Tree.slots_of_array helements] at hatoms
    simp only [Tree.array?_eq_some_iff.mp helements, htag, hatoms, ok_bind]
    exact ⟨_, rfl⟩
  · obtain ⟨object, hobject, hlookup⟩ := Tree.shape?_eq_some_iff.mp hshape
    rw [Tree.slots_of_object hobject hlookup, Tree.declaredValues] at hatoms
    simp only [Tree.object?_eq_some_iff.mp hobject, Registry.shapeOf_eq_ok.mpr hlookup, hatoms, ok_bind]
    exact ⟨_, rfl⟩

/-- After a walk, every node can be classified: those that it leads to come before it. -/
theorem WalkInput.Walked.classify_ok {postOrder : List NodeId} (h : input.Walked m postOrder)
    (hranking : m.Ranking input.tree input.registry (postOrder.idxOf ·)) :
    ∃ classes, m.classify input.tree input.registry postOrder = .ok classes := by
  cases hrun : m.classify input.tree input.registry postOrder with
  | ok classes => exact ⟨classes, rfl⟩
  | error e =>
      obtain ⟨done, id, rest, classes, hsplit, hdone, hstep⟩ := foldlM_eq_error hrun
      have hnodup := h.nodup
      rw [hsplit, List.nodup_append] at hnodup
      have hc : Classified m input.tree input.registry done classes :=
        classified_of_classify hnodup.1 hdone
      have hmem : id ∈ postOrder := by simp [hsplit]
      have hid := (h.mem_iff id).mp hmem
      have hnew : id ∉ done := fun hin => hnodup.2.2 id hin id List.mem_cons_self rfl
      have hchildren : ∀ child, input.tree.HasChild input.registry id child →
          (classes.classOf? child).isSome = true := by
        intro child hchild
        obtain ⟨value, hvalue, hnode⟩ := hchild
        have hlt := hranking.child_lt id hid value hvalue child hnode
        refine (hc.isSome_iff child).mpr ?_
        by_contra hnot
        simp only [hsplit] at hlt
        rw [List.idxOf_append_of_notMem hnot, List.idxOf_append_of_notMem hnew, List.idxOf_cons_self] at hlt
        omega
      obtain ⟨key, hkey⟩ := (h.complete id hmem).classKey_ok hid hchildren
      rw [hkey, ok_bind] at hstep
      simp [pure, Except.pure] at hstep

/-- After a walk in which no node leads back to itself, deduplication comes to its end. -/
theorem Trace.dedupe_ok (w : Trace input)
    (hacyclic : ∀ id, input.tree.InUse input.registry id → ¬ input.tree.Above input.registry id id)
    (minUses : Nat) :
    ∃ result, w.module.dedupe input.tree input.registry w.postOrder minUses = .ok result := by
  obtain ⟨classes, hclasses⟩ := w.walked.classify_ok (w.walked.ranking hacyclic)
  obtain ⟨g, rfl⟩ := w.exists_grouped hclasses
  obtain ⟨state, hstate⟩ := g.mergeClasses_ok minUses
  exact ⟨state, bind_eq_ok.mpr ⟨_, hclasses, mapError_eq_ok.mpr hstate⟩⟩

end Module

end SyntaxPack
