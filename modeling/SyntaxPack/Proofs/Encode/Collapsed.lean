import SyntaxPack.Proofs.Encode.Dedupable
import SyntaxPack.Proofs.Encode.Survivors
/-!
# SyntaxPack.Proofs.Encode.Collapsed

What deduplication merges.

Classes are found bottom-up: what a class has in common is a shape or an element tag and, child
by child, a value or the number of a class. Yet two nodes are in one class if and only if they
stand for the same (`Grouped.sameClass_iff`), which is said of two nodes and everything below
them at once. One direction takes the classes for a relation in which related nodes match, the
other one goes along such a relation from children to parents. Whether the classes of the children
are merged makes no difference.

A class is then merged as a whole or not at all, by the hits of its members before the first
merge: merging changes the hits of the class that is merged only.
-/

namespace SyntaxPack

theorem filter_eq_of_sublist {α : Type} {l l' : List α} {p : α → Bool} (h : l.Sublist l')
    (hnodup : l'.Nodup) (hp : ∀ x ∈ l', p x = true ↔ x ∈ l) : l'.filter p = l := by
  have hall : l.filter p = l :=
    List.filter_eq_self.mpr fun x hx => (hp x (h.subset hx)).mpr hx
  have hsub : l.Sublist (l'.filter p) := hall ▸ h.filter p
  have hsubperm : List.Subperm (l'.filter p) l := (hnodup.filter p).subperm fun x hx => by
    obtain ⟨hx, hpx⟩ := List.mem_filter.mp hx
    exact (hp x hx).mp hpx
  exact (hsub.eq_of_length_le hsubperm.length_le).symm

namespace Tree

variable {tree : Tree} {registry : Registry} {rel : NodeId → NodeId → Prop} {x y : NodeId}

/-- The value that refers to a node. -/
def reference (tree : Tree) (id : NodeId) : Value :=
  if (tree.array? id).isSome then .array id else .object id

/-- Whether two nodes stand for the same, apart from undeclared fields. -/
def nodesEq (tree : Tree) (registry : Registry) (x y : NodeId) : Bool :=
  valuesEq (tree.declaredOnly registry) (tree.reference x) (tree.declaredOnly registry)
    (tree.reference y)

theorem node?_reference (tree : Tree) (id : NodeId) : (tree.reference id).node? = some id := by
  rw [reference]
  split <;> rfl

theorem alike_reference (hxy : rel x y) (hkind : (tree.array? y).isSome = (tree.array? x).isSome) :
    Alike rel (tree.reference x) (tree.reference y) := by
  rw [reference, reference, hkind]
  split
  · exact .array hxy
  · exact .object hxy

end Tree

namespace Module

variable {tree : Tree} {registry : Registry} {shapes : List ShapeId} {m m' : Module}
  {source target x y z : NodeId} {input : WalkInput} {log : List Value} {w : Trace input}
  {c : NodeClass} {minUses : Nat}

/-! ### Entries

Two nodes share an entry if they are names in one table that lead to one handle. Where the survivor
of a node is known, this is the same as having one survivor. -/

/-- Two nodes reach one entry of one table. -/
inductive SameEntry (tree : Tree) (registry : Registry) (m : Module) (x y : NodeId) : Prop
  | array {a : Handle} (hx : (tree.array? x).isSome = true) (hy : (tree.array? y).isSome = true)
      (getx : m.arrays.get? x = some a) (gety : m.arrays.get? y = some a)
  | object {shape own : ShapeId} {t : UniqueTable NodeId} {a : Handle}
      (hx : tree.shape? registry x = some shape) (hy : tree.shape? registry y = some own)
      (together : m.objects.Together shape own) (table : m.objects.table? shape = some t)
      (getx : t.get? x = some a) (gety : t.get? y = some a)

/-- Nodes reach one entry if and only if the same node survives for them. -/
theorem Filled.sameEntry_iff (hf : Filled tree registry shapes m)
    (hz : m.repOf tree registry x = some z) :
    m.SameEntry tree registry x y ↔ m.repOf tree registry x = m.repOf tree registry y := by
  constructor
  · intro h
    cases h with
    | array hx hy getx gety =>
        rw [repOf_array hx, repOf_array hy, UniqueTable.rep, UniqueTable.rep, getx, gety]
    | object hx hy together table getx gety =>
        rw [repOf_object hx, repOf_object hy, ← ObjectTables.table?_congr together, table,
          Option.bind_some, Option.bind_some, UniqueTable.rep, UniqueTable.rep, getx, gety]
  · intro heq
    have hz' := heq.symm.trans hz
    rcases hf.repOf_cases hz with ⟨hx, harray⟩ | ⟨shape, own, hx, hown, htogether⟩
    · have hy : (tree.array? y).isSome = true := (hf.isSome_array?_of_repOf hz').symm.trans harray
      rw [repOf_array hx] at hz
      rw [repOf_array hy] at hz'
      obtain ⟨a, hget, hat⟩ := hf.arrays.liveAt_of_rep hz
      exact .array hx hy hget ((hf.arrays.get?_eq_iff hat).mpr hz')
    · rcases hf.repOf_cases hz' with ⟨-, harray⟩ | ⟨shape', own', hy, hown', htogether'⟩
      · simp [Tree.array?_eq_none_of_shape hown] at harray
      · obtain rfl := Option.some.inj (hown.symm.trans hown')
        have hsame := htogether.trans htogether'.symm
        rw [repOf_object hx] at hz
        obtain ⟨t, ht, hrep⟩ := Option.bind_eq_some_iff.mp hz
        rw [repOf_object hy, ← ObjectTables.table?_congr hsame, ht, Option.bind_some] at hz'
        have hv := hf.objects shape t ht
        obtain ⟨a, hget, hat⟩ := hv.liveAt_of_rep hrep
        exact .object hx hy hsame ht hget ((hv.get?_eq_iff hat).mpr hz')

/-! ### Counting what survives

Each merge takes one live entry away and is counted once, so the two numbers have a constant sum. -/

/-- Merging two nodes takes one entry away. -/
theorem Tallied.liveNodes_mergeNode (h : Tallied input log m) {own : Option ShapeId}
    (hrun : Module.mergeNode input.registry own m source target = .ok m') :
    m'.liveNodes + 1 = m.liveNodes := by
  cases own with
  | some shape =>
      obtain ⟨objects, hobjects, h₁⟩ := bind_eq_ok.mp hrun
      obtain rfl := Except.ok.inj h₁
      obtain ⟨t, ht⟩ := exists_table_of_dedupe h.wellShaped hobjects
      obtain ⟨u, hu, rfl⟩ := ObjectTables.update_eq_ok ht hobjects
      have hsize := (h.objects shape t ht).wellFormed.size_dedupe hu
      have htables := @ObjectTables.size_setTable m.objects shape t u ht
      simp only [liveNodes, ObjectTables.size] at htables ⊢
      omega
  | none =>
      obtain ⟨arrays, harrays, h₁⟩ := bind_eq_ok.mp hrun
      obtain rfl := Except.ok.inj h₁
      have hsize := h.arrays.wellFormed.size_dedupe harrays
      simp only [liveNodes]
      omega

theorem Tallied.liveNodes_mergeClass {state state' : Nat × Module} (h : Tallied input log state.2)
    (hrun : Module.mergeClass input.registry minUses state c = .ok state') :
    state'.1 + state'.2.liveNodes = state.1 + state.2.liveNodes := by
  refine (mergeClass_induction (motive := fun k => Tallied input log k.2 ∧
    k.1 + k.2.liveNodes = state.1 + state.2.liveNodes) hrun ⟨h, rfl⟩ ?_).2
  intro k k' source target _ _ hk hmerge
  have hless := hk.1.liveNodes_mergeNode hmerge
  have hsum := hk.2
  exact ⟨hk.1.mergeNode hmerge, by simp only; omega⟩

/-- The nodes that were merged away are missing in the tables. -/
theorem Tallied.liveNodes_dedupe (h : Tallied input log m) {postOrder : List NodeId}
    {result : Nat × Module}
    (hrun : m.dedupe input.tree input.registry postOrder minUses = .ok result) :
    result.1 + result.2.liveNodes = m.liveNodes := by
  obtain ⟨classes, -, h₁⟩ := bind_eq_ok.mp hrun
  refine (foldlM_induction (motive := fun _ k => Tallied input log k.2 ∧
    k.1 + k.2.liveNodes = m.liveNodes) (mapError_eq_ok.mp h₁) ⟨h, Nat.zero_add _⟩ ?_).2
  intro _ c _ k k' _ hk hstep
  exact ⟨hk.1.mergeClass hstep, (hk.1.liveNodes_mergeClass hstep).trans hk.2⟩

/-! ### Classes

What a class stands for is said without classes: all nodes that stand for the same, with the hits of
all of them together. -/

/-- The hits of all nodes that stand for the same as a node. -/
def usesLike (m : Module) (tree : Tree) (registry : Registry) (postOrder : List NodeId)
    (id : NodeId) : Nat :=
  ((postOrder.filter (tree.nodesEq registry id)).map fun other =>
    m.usesOf (tree.shape? registry other) other).foldr (· + ·) 0

namespace Grouped

variable (g : Grouped w)

/-- Two nodes are in one class if and only if they stand for the same. -/
theorem sameClass_iff (hx : w.HasNode x) (hy : w.HasNode y) :
    g.SameClass x y ↔ input.tree.nodesEq input.registry x y = true := by
  rw [Tree.nodesEq, Tree.valuesEq_iff]
  constructor
  · intro h
    exact ⟨g.SameClass, fun a b hab => (g.corresponding a b hab).matched_declaredOnly,
      Tree.alike_reference h (g.corresponding x y h).isSome_array?_eq⟩
  · rintro ⟨related, hmatched, halike⟩
    obtain ⟨other, hother, hxy⟩ := halike.node (input.tree.node?_reference x)
    obtain rfl := Option.some.inj ((input.tree.node?_reference y).symm.trans hother)
    have hsame : ∀ a b, related a b → w.HasNode a →
        Tree.SameSlots input.tree input.tree input.registry related a b := by
      intro a b hab ha
      refine ((hmatched a b hab).sameSlots ?_).of_declaredOnly
      simpa only [Tree.array?_declaredOnly, Tree.shape?_declaredOnly] using ha.kind
    exact g.sameClass_of_corresponding (w.corresponding_of_sameSlots w hsame)
      (fun a b hab => hab.2) ⟨hxy, hx, hy⟩

theorem mem_members_iff (hc : c ∈ g.classes) (hx : x ∈ c.members) (hy : w.HasNode y) :
    y ∈ c.members ↔ input.tree.nodesEq input.registry x y = true := by
  have hclass := g.isClass hc
  have hxNode := hclass.hasNode x hx
  rw [← g.sameClass_iff hxNode hy]
  constructor
  · intro hmem
    exact ⟨hxNode, hy, hclass.rank_eq x hx y hmem⟩
  · intro h
    exact hclass.mem_of_rank_eq x hx y hy h.2.2.symm

/-- The members of a class, in the order in which they were left. -/
theorem filter_postOrder (hc : c ∈ g.classes) (hx : x ∈ c.members) :
    w.postOrder.filter (input.tree.nodesEq input.registry x) = c.members.reverse :=
  filter_eq_of_sublist (g.sublist c hc) w.walked.nodup fun y hy => by
    rw [List.mem_reverse, g.mem_members_iff hc hx ((w.walked.mem_iff y).mp hy)]

theorem usesLike_eq (hc : c ∈ g.classes) (hx : x ∈ c.members) :
    w.module.usesLike input.tree input.registry w.postOrder x =
      (c.members.reverse.map w.met).foldr (· + ·) 0 := by
  rw [usesLike, g.filter_postOrder hc hx]
  refine congrArg (List.foldr (· + ·) 0) (List.map_congr_left fun y hy => ?_)
  exact g.usesOf_eq_met hc w.merging_self w.logged.tallied
    (fun z hz => w.repOf_module ((g.isClass hc).hasNode z hz)) (List.mem_reverse.mp hy)

end Grouped

namespace Thinned

variable (d : Thinned w minUses)

/-- The node that survives is the first one that stands for the same, if these are used often
enough. -/
theorem repOf_eq_ite (hx : w.HasNode x) : d.merged.repOf input.tree input.registry x =
    if w.module.usesLike input.tree input.registry w.postOrder x < minUses then some x
    else w.postOrder.find? (input.tree.nodesEq input.registry x) := by
  obtain ⟨c, hc, hmem⟩ := d.exists_class hx
  rw [d.repOf_eq c hc x hmem, d.usesLike_eq hc hmem, ← List.head?_filter,
    d.filter_postOrder hc hmem, List.head?_reverse]

theorem repOf_eq_repOf_iff (hx : w.HasNode x) (hy : w.HasNode y) :
    d.merged.repOf input.tree input.registry x = d.merged.repOf input.tree input.registry y ↔
      x = y ∨ input.tree.nodesEq input.registry x y = true ∧
        minUses ≤ w.module.usesLike input.tree input.registry w.postOrder x := by
  obtain ⟨c, hc, hxc⟩ := d.exists_class hx
  rw [d.usesLike_eq hc hxc, ← d.mem_members_iff hc hxc hy]
  constructor
  · intro heq
    -- what survives for both is in the class of either
    obtain ⟨z, hz, -, hnumber⟩ := d.merging.rep x hx
    obtain ⟨z', hz', -, hnumber'⟩ := d.merging.rep y hy
    obtain rfl : z = z' := Option.some.inj (hz.symm.trans (heq.trans hz'))
    have hyc := (d.isClass hc).mem_of_rank_eq x hxc y hy (hnumber'.symm.trans hnumber)
    rw [d.repOf_eq c hc x hxc, d.repOf_eq c hc y hyc] at heq
    split at heq
    · exact Or.inl (Option.some.inj heq)
    · exact Or.inr ⟨hyc, by omega⟩
  · rintro (rfl | ⟨hyc, hoften⟩)
    · rfl
    · rw [d.repOf_eq c hc x hxc, d.repOf_eq c hc y hyc, if_neg (by omega), if_neg (by omega)]

end Thinned

/-! ### The whole pass

The result, in terms of the module before and of the tree. Neither classes nor handles occur in
it. -/

/-- What deduplication makes of the tables that a walk has filled. -/
structure Collapsed (tree : Tree) (registry : Registry) (postOrder : List NodeId) (minUses : Nat)
    (m : Module) (result : Nat × Module) : Prop where
  /-- Every registered node is left once. -/
  postOrder_nodup : postOrder.Nodup
  mem_postOrder : ∀ id, id ∈ postOrder ↔ m.HasNode tree registry id
  /-- The names in the tables stay. -/
  hasNode_iff : ∀ id, result.2.HasNode tree registry id ↔ m.HasNode tree registry id
  /-- Before, every node has an entry of its own. -/
  unmerged : ∀ x y, m.HasNode tree registry x → m.HasNode tree registry y →
    (m.SameEntry tree registry x y ↔ x = y)
  /-- Afterwards, nodes share an entry if they stand for the same and are used often enough
  before, together with all others that do. -/
  sameEntry_iff : ∀ x y, m.HasNode tree registry x → m.HasNode tree registry y →
    (result.2.SameEntry tree registry x y ↔ x = y ∨ tree.nodesEq registry x y = true ∧
      minUses ≤ m.usesLike tree registry postOrder x)
  /-- The entry is that of the node that is left first. -/
  repOf_eq : ∀ x, m.HasNode tree registry x → result.2.repOf tree registry x =
    if m.usesLike tree registry postOrder x < minUses then some x
    else postOrder.find? (tree.nodesEq registry x)
  /-- What is counted is what is missing. -/
  count : result.1 + result.2.liveNodes = m.liveNodes

theorem Trace.collapsed (w : Trace input) {result : Nat × Module}
    (h : w.module.dedupe input.tree input.registry w.postOrder minUses = .ok result) :
    Collapsed input.tree input.registry w.postOrder minUses w.module result := by
  obtain ⟨d, hd⟩ := w.exists_thinned h
  refine ⟨w.walked.nodup, w.walked.mem_iff, ?_, fun x y hx hy => ?_, fun x y hx hy => ?_, ?_,
    w.logged.tallied.liveNodes_dedupe h⟩
  · exact hd ▸ d.merging.hasNode_iff
  · rw [w.filled.sameEntry_iff (w.repOf_module hx), w.repOf_module hx, w.repOf_module hy,
      Option.some.injEq]
  · obtain ⟨z, hz, -⟩ := d.merging.rep x hx
    rw [← hd, d.merging.filled.sameEntry_iff hz, d.repOf_eq_repOf_iff hx hy]
  · exact hd ▸ fun x hx => d.repOf_eq_ite hx

/-- After a walk in which no node leads back to itself, deduplication comes to its end. It merges
the nodes that stand for the same and are used often enough, and no others. -/
theorem dedupe_collapses {description : RegistryDescription} {config : EncodingConfig}
    {postOrder : List NodeId} (hregistry : description.build = .ok registry)
    (hacyclic : ∀ id, tree.InUse registry id → ¬ tree.Above registry id id)
    (h : (⟨tree, registry, config⟩ : WalkInput).walk = .ok (m, postOrder)) (minUses : Nat) :
    ∃ result, m.dedupe tree registry postOrder minUses = .ok result ∧
      Collapsed tree registry postOrder minUses m result := by
  obtain ⟨w, rfl, rfl⟩ := WalkInput.exists_trace (RegistryDescription.valid_of_build hregistry) h
  obtain ⟨result, hresult⟩ := w.dedupe_ok hacyclic minUses
  exact ⟨result, hresult, w.collapsed hresult⟩

/-- Two pairs are merged into others, an inner one and the outer one that holds it. -/
theorem copiedPairs_collapse : RegistryDescription.pairs.build = .ok .pairs ∧
    (∀ id, Tree.copiedPairs.InUse .pairs id → ¬ Tree.copiedPairs.Above .pairs id id) ∧
    ∃ m, (⟨.copiedPairs, .pairs, {}⟩ : WalkInput).walk = .ok (m, [⟨0⟩, ⟨1⟩, ⟨2⟩, ⟨3⟩, ⟨4⟩]) ∧
      ∃ result, m.dedupe .copiedPairs .pairs [⟨0⟩, ⟨1⟩, ⟨2⟩, ⟨3⟩, ⟨4⟩] 2 = .ok result ∧
        Collapsed .copiedPairs .pairs [⟨0⟩, ⟨1⟩, ⟨2⟩, ⟨3⟩, ⟨4⟩] 2 m result ∧
        result.1 = 2 ∧ result.2.repOf .copiedPairs .pairs ⟨3⟩ = some ⟨1⟩ := by
  have hacyclic := @Tree.not_above_of_acyclic .copiedPairs .pairs
    fun id _ => Tree.copiedPairs_acyclic id
  have hrun : (⟨.copiedPairs, .pairs, {}⟩ : WalkInput).walk.toOption.bind (fun found =>
      (found.1.dedupe .copiedPairs .pairs found.2 2).toOption.map fun result =>
        (found.2, result.1, result.2.repOf .copiedPairs .pairs ⟨3⟩)) =
      some ([⟨0⟩, ⟨1⟩, ⟨2⟩, ⟨3⟩, ⟨4⟩], 2, some ⟨1⟩) := by decide +kernel
  obtain ⟨⟨m, postOrder⟩, hm, hmerged⟩ := Option.bind_eq_some_iff.mp hrun
  obtain ⟨result, hresult, hfound⟩ := Option.map_eq_some_iff.mp hmerged
  rw [Prod.mk.injEq, Prod.mk.injEq] at hfound
  obtain ⟨rfl, hcount, hrep⟩ := hfound
  have hwalk := eq_ok_of_toOption hm
  obtain ⟨other, hother, hcollapsed⟩ := dedupe_collapses Registry.build_pairs hacyclic hwalk 2
  obtain rfl := Except.ok.inj ((eq_ok_of_toOption hresult).symm.trans hother)
  exact ⟨Registry.build_pairs, hacyclic, m, hwalk, result, hother, hcollapsed, hcount, hrep⟩

end Module

end SyntaxPack
