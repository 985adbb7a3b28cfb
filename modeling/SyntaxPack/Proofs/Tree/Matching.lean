import SyntaxPack.Proofs.Encode.Nodes
import SyntaxPack.Proofs.Registry
import SyntaxPack.Proofs.Tree.Conforms
import SyntaxPack.Proofs.Tree.Equality
/-!
# SyntaxPack.Proofs.Tree.Matching

Comparing nodes by their slots.

The encoder sees the declared fields of an object in the order of their declaration, the
comparison of trees sees the fields that are set. Both see the same: a field that is not
set counts as null, and an object without undeclared fields is nothing but its slots.
-/

namespace SyntaxPack

/-- Whether a shape declares a field of a name. -/
def Registry.declares (registry : Registry) (shape : ShapeId) (name : String) : Bool :=
  (registry.fields shape).any (·.name = name)

/-- An object without the fields that its shape does not declare. If there is no such shape,
nothing is declared, and the object stays as it is. -/
def Object.declaredOnly (registry : Registry) (object : Object) : Object :=
  match registry.lookup object.shape with
  | some shape => { object with fields := object.fields.filter fun p => registry.declares shape p.1 }
  | none => object

/-- A node without undeclared fields. -/
def Node.declaredOnly (registry : Registry) : Node → Node
  | .array elements => .array elements
  | .object content => .object (content.declaredOnly registry)

/-- A tree after its undeclared fields are removed. -/
def Tree.declaredOnly (registry : Registry) (tree : Tree) : Tree :=
  { tree with nodes := tree.nodes.map (·.declaredOnly registry) }

namespace Tree

variable {registry : Registry} {a b tree : Tree} {related : NodeId → NodeId → Prop}
  {x y id : NodeId} {shape : ShapeId}

/-! ### Undeclared fields -/

/-- No undeclared field of an object is set. -/
def OnlyDeclared (tree : Tree) (registry : Registry) (id : NodeId) : Prop :=
  ∀ object shape, tree.object? id = some object → registry.lookup object.shape = some shape →
    ∀ p ∈ object.fields, registry.declares shape p.1 = true

theorem node?_declaredOnly (tree : Tree) (registry : Registry) (id : NodeId) :
    (tree.declaredOnly registry).node? id = (tree.node? id).map (·.declaredOnly registry) := by
  simp [node?, declaredOnly]

theorem array?_declaredOnly (tree : Tree) (registry : Registry) (id : NodeId) :
    (tree.declaredOnly registry).array? id = tree.array? id := by
  rw [array?, array?, node?_declaredOnly]
  rcases tree.node? id with _ | (_ | _) <;> rfl

theorem object?_declaredOnly (tree : Tree) (registry : Registry) (id : NodeId) :
    (tree.declaredOnly registry).object? id = (tree.object? id).map (·.declaredOnly registry) := by
  rw [object?, object?, node?_declaredOnly]
  rcases tree.node? id with _ | (_ | _) <;> rfl

@[simp] theorem shape_declaredOnly (registry : Registry) (object : Object) :
    (object.declaredOnly registry).shape = object.shape := by
  unfold Object.declaredOnly
  split <;> rfl

theorem shape?_declaredOnly (tree : Tree) (registry : Registry) (id : NodeId) :
    (tree.declaredOnly registry).shape? registry id = tree.shape? registry id := by
  rw [shape?, shape?, object?_declaredOnly]
  cases tree.object? id <;> simp

/-- Declared fields are still there. -/
theorem get_declaredOnly {object : Object} (hshape : registry.lookup object.shape = some shape)
    {name : String} (hname : registry.declares shape name = true) :
    (object.declaredOnly registry).get name = object.get name := by
  simp only [Object.get, Object.get?, Object.declaredOnly, hshape, lookup_filter, if_pos hname]

theorem declares_of_mem {field : Field} (h : field ∈ registry.fields shape) :
    registry.declares shape field.name = true :=
  List.any_eq_true.mpr ⟨field, h, by simp⟩

theorem slots_declaredOnly (tree : Tree) (registry : Registry) (id : NodeId) :
    (tree.declaredOnly registry).slots registry id = tree.slots registry id := by
  unfold slots
  rw [node?_declaredOnly]
  rcases tree.node? id with _ | (elements | object)
  · rfl
  · rfl
  · simp only [Option.map_some, Node.declaredOnly, shape_declaredOnly]
    cases hshape : registry.lookup object.shape with
    | none => rfl
    | some shape =>
        exact List.map_congr_left fun field hfield =>
          get_declaredOnly hshape (declares_of_mem hfield)

theorem onlyDeclared_declaredOnly (tree : Tree) (registry : Registry) (id : NodeId) :
    (tree.declaredOnly registry).OnlyDeclared registry id := by
  intro object shape hobject hshape p hp
  rw [object?_declaredOnly] at hobject
  obtain ⟨original, -, rfl⟩ := Option.map_eq_some_iff.mp hobject
  rw [shape_declaredOnly] at hshape
  simp only [Object.declaredOnly, hshape] at hp
  exact (List.mem_filter.mp hp).2

/-! ### Matching -/

theorem matched_arrays {elements others : List Value} (hx : a.array? x = some elements)
    (hy : b.array? y = some others) (h : List.Forall₂ (Alike related) elements others) :
    Matched a b related x y := by
  refine ⟨elements.zip others, ?_, fun p hp => (List.forall₂_iff_zip.mp h).2 hp⟩
  rw [array?_eq_some_iff.mp hx, array?_eq_some_iff.mp hy]
  simp [matchNodes, h.length_eq]

/-- Objects of one shape match if their declared values are alike and nothing else is set. -/
theorem matched_objects (hx : a.shape? registry x = some shape) (hy : b.shape? registry y = some shape)
    (hdeclaredX : a.OnlyDeclared registry x) (hdeclaredY : b.OnlyDeclared registry y)
    (h : List.Forall₂ (Alike related) (a.slots registry x) (b.slots registry y)) :
    Matched a b related x y := by
  obtain ⟨object, hobject, hshape⟩ := shape?_eq_some_iff.mp hx
  obtain ⟨other, hother, hshape'⟩ := shape?_eq_some_iff.mp hy
  have hname : object.shape = other.shape :=
    (Registry.lookup_eq_some hshape).2.symm.trans (Registry.lookup_eq_some hshape').2
  rw [slots_of_object hobject hshape, slots_of_object hother hshape'] at h
  refine ⟨(object.fields ++ other.fields).map fun p => (object.get p.1, other.get p.1), ?_,
    fun p hp => ?_⟩
  · rw [object?_eq_some_iff.mp hobject, object?_eq_some_iff.mp hother, matchNodes, if_pos hname]
  · obtain ⟨entry, hentry, rfl⟩ := List.mem_map.mp hp
    -- whichever of the two sets the field, its shape declares it
    have hdeclared : registry.declares shape entry.1 = true := by
      rcases List.mem_append.mp hentry with hentry | hentry
      · exact hdeclaredX object shape hobject hshape entry hentry
      · exact hdeclaredY other shape hother hshape' entry hentry
    obtain ⟨field, hfield, heq⟩ := List.any_eq_true.mp hdeclared
    have hfieldName : field.name = entry.1 := by simpa using heq
    refine (List.forall₂_iff_zip.mp h).2 ?_
    rw [declaredValues, declaredValues, List.zip_map', ← hfieldName]
    exact List.mem_map_of_mem hfield

theorem get_of_notMem {object : Object} {name : String} (h : name ∉ object.fields.map (·.1)) :
    object.get name = .null := by
  simp [Object.get, Object.get?, lookup_eq_none.mpr h]

/-- Matching nodes are arrays that are alike element by element, or objects of one shape that
are alike in every field, set or not. -/
theorem Matched.cases (h : Matched a b related x y) :
    (∃ elements others, a.array? x = some elements ∧ b.array? y = some others ∧
      List.Forall₂ (Alike related) elements others) ∨
    ∃ object other, a.object? x = some object ∧ b.object? y = some other ∧
      object.shape = other.shape ∧ ∀ name, Alike related (object.get name) (other.get name) := by
  obtain ⟨pairs, hmatch, hpairs⟩ := h
  rcases hx : a.node? x with _ | (elements | object) <;>
    rcases hy : b.node? y with _ | (others | other) <;> rw [hx, hy] at hmatch <;>
    simp only [matchNodes, reduceCtorEq] at hmatch
  · split at hmatch
    · rename_i hlength
      obtain rfl := Option.some.inj hmatch
      exact Or.inl ⟨elements, others, array?_eq_some_iff.mpr hx, array?_eq_some_iff.mpr hy,
        List.forall₂_iff_zip.mpr ⟨hlength, fun hp => hpairs _ hp⟩⟩
    · simp at hmatch
  · split at hmatch
    · rename_i hname
      obtain rfl := Option.some.inj hmatch
      refine Or.inr ⟨object, other, object?_eq_some_iff.mpr hx, object?_eq_some_iff.mpr hy, hname,
        fun name => ?_⟩
      by_cases hset : name ∈ (object.fields ++ other.fields).map (·.1)
      · obtain ⟨entry, hentry, rfl⟩ := List.mem_map.mp hset
        exact hpairs _ (List.mem_map_of_mem hentry)
      · rw [List.map_append, List.mem_append, not_or] at hset
        rw [get_of_notMem hset.1, get_of_notMem hset.2]
        exact .plain rfl
    · simp at hmatch

/-- What matches are objects of one shape, with slots that are alike. -/
theorem Matched.slots_of_shape (h : Matched a b related x y)
    (hx : a.shape? registry x = some shape) : b.shape? registry y = some shape ∧
      List.Forall₂ (Alike related) (a.slots registry x) (b.slots registry y) := by
  obtain ⟨object, hobject, hshape⟩ := shape?_eq_some_iff.mp hx
  rcases h.cases with ⟨elements, others, harray, -⟩ | ⟨found, other, hfound, hother, hname, hget⟩
  · simp [array?_eq_none_of_object hobject] at harray
  · obtain rfl : found = object := Option.some.inj (hfound.symm.trans hobject)
    rw [hname] at hshape
    refine ⟨shape?_eq_some_iff.mpr ⟨other, hother, hshape⟩, ?_⟩
    rw [slots_of_object hobject (hname ▸ hshape), slots_of_object hother hshape]
    exact List.forall₂_map_left_iff.mpr (List.forall₂_map_right_iff.mpr
      (List.forall₂_same.mpr fun field _ => hget field.name))

/-- What matches are arrays with elements that are alike. -/
theorem Matched.slots_of_array (h : Matched a b related x y) {elements : List Value}
    (hx : a.array? x = some elements) : ∃ others, b.array? y = some others ∧
      List.Forall₂ (Alike related) elements others := by
  rcases h.cases with ⟨found, others, hfound, hothers, halike⟩ | ⟨object, -, hobject, -⟩
  · obtain rfl : found = elements := Option.some.inj (hfound.symm.trans hx)
    exact ⟨others, hothers, halike⟩
  · simp [array?_eq_none_of_object hobject] at hx

end Tree

end SyntaxPack
