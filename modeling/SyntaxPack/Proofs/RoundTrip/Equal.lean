import SyntaxPack.Proofs.RoundTrip.Whole
import SyntaxPack.Proofs.Tree.Corresponding
/-!
# SyntaxPack.Proofs.RoundTrip.Equal

What is read back stands for what was written.

A node and its origin have the same number, and so has every node that was merged into the
origin. So nodes of one number are a relation by which the decoded tree and the encoded one
stand for the same: their slots are alike, whichever of the merged nodes was written. Since
numbers grow from children to parents, the decoded tree has no cycle either.
-/

namespace SyntaxPack

/-! ### Objects of a shape

An object that the decoder makes has the declared fields in their order and no others, and the values
read from them are those that it was made from. -/

theorem lookup_zip {names : List String} {values : List Value} (hnodup : names.Nodup)
    (hlength : names.length = values.length) :
    names.map (fun name => ((names.zip values).lookup name).getD .null) = values := by
  induction names generalizing values with
  | nil =>
      cases values with
      | nil => rfl
      | cons value values => simp at hlength
  | cons name names ih =>
      obtain ⟨value, values, rfl⟩ := List.exists_cons_of_length_eq_add_one hlength.symm
      obtain ⟨hname, hnodup⟩ := List.nodup_cons.mp hnodup
      have hrest := @ih values hnodup (by simpa using hlength)
      have htail : names.map (fun other => (((name :: names).zip (value :: values)).lookup other).getD
          .null) = values := by
        rw [← hrest]
        refine List.map_congr_left fun other hother => ?_
        have hne : other ≠ name := fun heq => hname (heq ▸ hother)
        rw [List.zip_cons_cons, lookup_cons_of_ne hne, hrest]
      rw [List.map_cons, htail]
      simp

namespace Registry

variable {registry : Registry} {shape : ShapeId} {values : List Value}

theorem objectOf_eq (hr : registry.Valid) (hlength : (registry.fields shape).length = values.length) :
    registry.objectOf shape values = ⟨registry.shapeName shape,
      ((registry.fields shape).map (·.name)).zip values⟩ := by
  refine Object.fields_ofFields ?_
  rw [List.map_fst_zip (by simp [hlength])]
  exact hr.fields_nodup_names shape

/-- The declared values of an object of a shape are those that it was made from. -/
theorem declaredValues_objectOf (hr : registry.Valid)
    (hlength : (registry.fields shape).length = values.length) :
    Tree.declaredValues registry shape (registry.objectOf shape values) = values := by
  have hlookup := @lookup_zip _ values (hr.fields_nodup_names shape) (by simpa using hlength)
  rw [List.map_map] at hlookup
  rw [objectOf_eq hr hlength]
  exact hlookup

end Registry

namespace Module

namespace Replay

variable {c : Replay} {origins : List NodeId} {t : Tree} {i : Nat} {origin : NodeId}
  {shape : ShapeId} {elements : List Value}

/-- The children of a copy are copies of the slots of its origin. -/
theorem CopiesNode.children (hr : c.input.registry.Valid) {node : Node}
    (h : c.CopiesNode origins origin node) :
    List.Forall₂ (Copies c.rank origins) (c.input.tree.slots c.input.registry origin)
      node.children := by
  cases h with
  | array harray hvalues =>
      rw [Tree.slots_of_array harray]
      exact hvalues
  | @object shape values hshape hvalues =>
      obtain ⟨object, hobject, hlookup⟩ := Tree.shape?_eq_some_iff.mp hshape
      have hlength : (c.input.registry.fields shape).length = values.length := by
        rw [← hvalues.length_eq, Tree.slots_of_object hobject hlookup]
        exact (List.length_map _).symm
      rw [Registry.objectOf_eq hr hlength, Node.children, List.map_snd_zip (by simp [hlength])]
      exact hvalues

namespace IsCopy

variable (h : c.IsCopy origins t)
include h

theorem array (hget : origins[i]? = some origin) (harray : c.input.tree.array? origin = some elements) :
    ∃ values, t.array? ⟨i⟩ = some values ∧ List.Forall₂ (Copies c.rank origins) elements values := by
  obtain ⟨node, hnode, hcopies⟩ := h.node i origin hget
  cases hcopies with
  | array hfound hvalues =>
      obtain rfl := Option.some.inj (hfound.symm.trans harray)
      exact ⟨_, Tree.array?_eq_some_iff.mpr hnode, hvalues⟩
  | object hshape _ =>
      obtain ⟨object, hobject, -⟩ := Tree.shape?_eq_some_iff.mp hshape
      simp [Tree.array?_eq_none_of_object hobject] at harray

/-- A copy of an object has its shape and copies of its slots, and nothing else. -/
theorem object (hr : c.input.registry.Valid) (hget : origins[i]? = some origin)
    (hshape : c.input.tree.shape? c.input.registry origin = some shape) :
    t.shape? c.input.registry ⟨i⟩ = some shape ∧ t.OnlyDeclared c.input.registry ⟨i⟩ ∧
      List.Forall₂ (Copies c.rank origins) (c.input.tree.slots c.input.registry origin)
        (t.slots c.input.registry ⟨i⟩) := by
  obtain ⟨node, hnode, hcopies⟩ := h.node i origin hget
  obtain ⟨original, horiginal, hlookup⟩ := Tree.shape?_eq_some_iff.mp hshape
  cases hcopies with
  | array hfound _ => simp [Tree.array?_eq_none_of_object horiginal] at hfound
  | @object own values hown hvalues =>
      obtain rfl : own = shape := Option.some.inj (hown.symm.trans hshape)
      have hslots := Tree.slots_of_object horiginal hlookup
      have hlength : (c.input.registry.fields own).length = values.length := by
        rw [← hvalues.length_eq, hslots]
        exact (List.length_map _).symm
      have hobject := Tree.object?_eq_some_iff.mpr hnode
      have heq := Registry.objectOf_eq hr hlength
      have hfound : c.input.registry.lookup (c.input.registry.objectOf own values).shape = some own := by
        rw [heq]
        exact hr.lookup_shapeName (Registry.lookup_eq_some hlookup).1
      refine ⟨Tree.shape?_eq_some_iff.mpr ⟨_, hobject, hfound⟩, ?_, ?_⟩
      · intro object other hobject' hother p hp
        obtain rfl := Option.some.inj (hobject'.symm.trans hobject)
        obtain rfl : own = other := Option.some.inj (hfound.symm.trans hother)
        rw [heq] at hp
        obtain ⟨field, hfield, hname⟩ := List.mem_map.mp (List.of_mem_zip hp).1
        exact hname ▸ Tree.declares_of_mem hfield
      · rw [Tree.slots_of_object hobject hfound, Registry.declaredValues_objectOf hr hlength]
        exact hvalues

/-! ### Cycles

A reference in a copy is a reference of its origin, and leads to a copy of a child. So along a path
the numbers of the origins fall. -/

omit h in
theorem node_of_copies {value : Value} {x : NodeId} {value' : Value}
    (h : Copies c.rank origins value value') (hx : value'.node? = some x) :
    ∃ id origin, value.node? = some id ∧ origins[x.index]? = some origin ∧
      c.rank origin = c.rank id := by
  cases h with
  | plain hnode => simp [hnode] at hx
  | array hget hrank | object hget hrank =>
      obtain rfl := Option.some.inj hx
      exact ⟨_, _, rfl, hget, hrank⟩

/-- Whatever a copy refers to has an origin of a smaller number. -/
theorem rank_lt (hr : c.input.registry.Valid)
    (hranking : c.module.Ranking c.input.tree c.input.registry c.rank) {x y : NodeId}
    (hrefers : t.Refers x y) (hget : origins[x.index]? = some origin) :
    ∃ other, origins[y.index]? = some other ∧ c.rank other < c.rank origin := by
  obtain ⟨node, hnode, hy⟩ := hrefers
  obtain ⟨found, hfound, hcopies⟩ := h.node _ _ hget
  obtain rfl := Option.some.inj (hnode.symm.trans hfound)
  obtain ⟨value', hvalue', hnode'⟩ := List.mem_filterMap.mp hy
  obtain ⟨value, hvalue, hcopy⟩ := exists_left_of_forall₂ (hcopies.children hr) hvalue'
  obtain ⟨id, other, hid, hother, hrank⟩ := node_of_copies hcopy hnode'
  have hlt := hranking.child_lt origin (h.hasNode origin (List.mem_of_getElem? hget)) value hvalue id hid
  exact ⟨other, hother, by omega⟩

theorem reaches_lt (hr : c.input.registry.Valid)
    (hranking : c.module.Ranking c.input.tree c.input.registry c.rank) {x y : NodeId}
    (hreaches : t.Reaches x y) (hget : origins[x.index]? = some origin) :
    ∃ other, origins[y.index]? = some other ∧ c.rank other < c.rank origin := by
  induction hreaches with
  | single hrefers => exact h.rank_lt hr hranking hrefers hget
  | tail _ hrefers ih =>
      obtain ⟨middle, hmiddle, hlt⟩ := ih
      obtain ⟨other, hother, hlt'⟩ := h.rank_lt hr hranking hrefers hmiddle
      exact ⟨other, hother, Nat.lt_trans hlt' hlt⟩

/-- With numbers that grow from children to parents, the decoder finds no cycle. -/
theorem findCycle_eq_none (hr : c.input.registry.Valid)
    (hranking : c.module.Ranking c.input.tree c.input.registry c.rank) : t.findCycle = none := by
  refine Tree.findCycle_eq_none_iff.mpr fun x hreaches => ?_
  have hnode : x.index < origins.length := by
    obtain ⟨y, ⟨node, hnode, -⟩, -⟩ := Relation.TransGen.head'_iff.mp hreaches
    exact h.size_eq ▸ Tree.lt_size_of_node? hnode
  obtain ⟨other, hother, hlt⟩ :=
    h.reaches_lt hr hranking hreaches (List.getElem?_eq_getElem hnode)
  obtain rfl := Option.some.inj (hother.symm.trans (List.getElem?_eq_getElem hnode))
  exact Nat.lt_irrefl _ hlt

end IsCopy

/-! ### Equality

The relation is `StandsFor`. It relates a decoded node to all nodes of its class, so that it does
not matter which of them is the origin. -/

/-- A tree that shows of the registered nodes what is encoded of them. -/
structure Shown (c : Replay) (u : Tree) : Prop where
  root : u.root = c.input.tree.root
  node : ∀ id, c.module.HasNode c.input.tree c.input.registry id →
    u.array? id = c.input.tree.array? id ∧
      u.shape? c.input.registry id = c.input.tree.shape? c.input.registry id ∧
      u.slots c.input.registry id = c.input.tree.slots c.input.registry id ∧
      u.OnlyDeclared c.input.registry id

/-- A node of the decoded tree stands for every node that has the number of its origin. -/
def StandsFor (c : Replay) (origins : List NodeId) (x y : NodeId) : Prop :=
  c.module.HasNode c.input.tree c.input.registry y ∧
    ∃ origin, origins[x.index]? = some origin ∧ c.rank origin = c.rank y

/-- Values of one atom have the same copies. -/
theorem alike_of_copies {value value' other : Value} (h : Copies c.rank origins value value')
    (hatom : atomOf c.rank value = atomOf c.rank other)
    (hother : c.module.Holds c.input.tree c.input.registry other) :
    Tree.Alike (c.StandsFor origins) value' other := by
  cases h with
  | plain hnode =>
      obtain rfl : value = other := by
        cases value <;> cases other <;> simp_all [atomOf, Value.node?]
      exact .plain hnode
  | array hget hrank =>
      cases other <;> simp only [atomOf, reduceCtorEq, Atom.array.injEq] at hatom
      exact .array ⟨hother.hasNode rfl, _, hget, hrank.trans hatom⟩
  | object hget hrank =>
      cases other <;> simp only [atomOf, reduceCtorEq, Atom.object.injEq] at hatom
      exact .object ⟨hother.hasNode rfl, _, hget, hrank.trans hatom⟩

theorem alike_of_atoms {values values' others : List Value}
    (h : List.Forall₂ (Copies c.rank origins) values values')
    (hatoms : values.map (atomOf c.rank) = others.map (atomOf c.rank))
    (hothers : ∀ other ∈ others, c.module.Holds c.input.tree c.input.registry other) :
    List.Forall₂ (Tree.Alike (c.StandsFor origins)) values' others := by
  induction h generalizing others with
  | nil =>
      obtain rfl := List.map_eq_nil_iff.mp hatoms.symm
      exact .nil
  | cons hcopies _ ih =>
      obtain ⟨other, rest, rfl, hatom, hrest⟩ := List.map_eq_cons_iff.mp hatoms.symm
      exact .cons (alike_of_copies hcopies hatom.symm (hothers other List.mem_cons_self))
        (ih hrest.symm fun value hvalue => hothers value (List.mem_cons_of_mem other hvalue))

/-- Nodes that stand for one another look the same to the encoder. -/
theorem IsCopy.sameSlots (h : c.IsCopy origins t) (hb : c.IsBuilt)
    (hclassed : c.module.Classed c.input.tree c.input.registry c.rank) (hr : c.input.registry.Valid) :
    Tree.Corresponding t c.input.tree c.input.registry (c.StandsFor origins) := by
  intro x y hxy
  obtain ⟨hy, origin, hget, hrank⟩ := hxy
  have horigin := h.hasNode origin (List.mem_of_getElem? hget)
  obtain ⟨key, hkey⟩ := exists_keyOf (hb.complete y hy) hy
  have hkey' := (hclassed origin y horigin hy hrank).trans hkey
  have hatoms := (atoms_of_keyOf hkey').symm.trans (atoms_of_keyOf hkey)
  have hholds := (hb.complete y hy).slots
  rcases horigin with ⟨hsome, -⟩ | ⟨shape, hshape, -⟩
  · obtain ⟨elements, helements⟩ := Option.isSome_iff_exists.mp hsome
    obtain ⟨others, hothers⟩ := Option.isSome_iff_exists.mp
      (hb.array_of_rank_eq (h.hasNode origin (List.mem_of_getElem? hget)) hy hrank.symm hsome)
    obtain ⟨values, hvalues, hcopies⟩ := h.array hget helements
    rw [Tree.slots_of_array helements, Tree.slots_of_array hothers] at hatoms
    rw [Tree.slots_of_array hothers] at hholds
    exact .array hvalues hothers (alike_of_atoms hcopies hatoms hholds)
  · have hother := hb.shape?_of_rank_eq (h.hasNode origin (List.mem_of_getElem? hget)) hy hrank.symm
      hshape
    obtain ⟨hfound, -, hcopies⟩ := h.object hr hget hshape
    exact .object hfound hother (alike_of_atoms hcopies hatoms hholds)

/-- A copy has no fields but the declared ones. -/
theorem IsCopy.onlyDeclared (h : c.IsCopy origins t) (hr : c.input.registry.Valid)
    (hget : origins[i]? = some origin) : t.OnlyDeclared c.input.registry ⟨i⟩ := by
  rcases h.hasNode origin (List.mem_of_getElem? hget) with ⟨harray, -⟩ | ⟨shape, hshape, -⟩
  · obtain ⟨elements, helements⟩ := Option.isSome_iff_exists.mp harray
    obtain ⟨values, hvalues, -⟩ := h.array hget helements
    intro object shape hobject
    simp [Tree.array?_eq_none_of_object hobject] at hvalues
  · exact (h.object hr hget hshape).2.1

/-- Nodes that stand for one another match. -/
theorem IsCopy.matched (h : c.IsCopy origins t) (hb : c.IsBuilt)
    (hclassed : c.module.Classed c.input.tree c.input.registry c.rank) (hr : c.input.registry.Valid)
    {u : Tree} (hu : c.Shown u) {x y : NodeId} (hxy : c.StandsFor origins x y) :
    Tree.Matched t u (c.StandsFor origins) x y := by
  have hsame := h.sameSlots hb hclassed hr x y hxy
  obtain ⟨hy, origin, hget, -⟩ := hxy
  obtain ⟨harray, hshape, hslots, hdeclared⟩ := hu.node y hy
  cases hsame with
  | array hx hother halike => exact Tree.matched_arrays hx (harray.trans hother) halike
  | object hx hother halike =>
      exact Tree.matched_objects hx (hshape.trans hother) (h.onlyDeclared hr hget) hdeclared
        (hslots ▸ halike)

theorem IsCopy.roots_alike (h : c.IsCopy origins t) (hb : c.IsBuilt) :
    Tree.Alike (c.StandsFor origins) t.root c.input.tree.root :=
  alike_of_copies h.root rfl hb.root

/-- What was read back stands for what was encoded. -/
theorem IsCopy.structuralEq (h : c.IsCopy origins t) (hb : c.IsBuilt)
    (hclassed : c.module.Classed c.input.tree c.input.registry c.rank) (hr : c.input.registry.Valid)
    {u : Tree} (hu : c.Shown u) : t.structuralEq u = true := by
  have hroot := hu.root ▸ h.roots_alike hb
  exact Tree.structuralEq_iff.mpr ⟨_, fun x y hxy => h.matched hb hclassed hr hu hxy, hroot⟩

end Replay

end Module

end SyntaxPack
