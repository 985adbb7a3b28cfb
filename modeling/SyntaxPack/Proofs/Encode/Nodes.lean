import SyntaxPack.Module.Walk
import SyntaxPack.Proofs.Lookup
import SyntaxPack.Proofs.Registry
import SyntaxPack.Proofs.Tree.Acyclic
/-!
# SyntaxPack.Proofs.Encode.Nodes

The nodes of a tree as the encoder sees them.

Of a node only its *slots* are encoded: the elements of an array, and the values of
the declared fields of an object, set or not. A value in a slot is one of the node's
children or null, so slots lead nowhere that references do not lead.
-/

namespace SyntaxPack

namespace Tree

variable {tree : Tree} {registry : Registry} {id child : NodeId} {shape : ShapeId}
  {elements : List Value} {object : Object} {value : Value}

/-- The shape of an object, if there is an object of a registered shape. -/
def shape? (tree : Tree) (registry : Registry) (id : NodeId) : Option ShapeId :=
  (tree.object? id).bind fun object => registry.lookup object.shape

/-- The values of an object's declared fields, in the order of their declaration. -/
def declaredValues (registry : Registry) (shape : ShapeId) (object : Object) : List Value :=
  (registry.fields shape).map fun field => object.get field.name

/-- The values that are encoded of a node. -/
def slots (tree : Tree) (registry : Registry) (id : NodeId) : List Value :=
  match tree.node? id with
  | some (.array elements) => elements
  | some (.object object) =>
    (registry.lookup object.shape).elim [] fun shape => declaredValues registry shape object
  | none => []

/-- A node that the root refers to, directly or not. -/
def Reachable (tree : Tree) (id : NodeId) : Prop :=
  ∃ root, tree.root.node? = some root ∧ Relation.ReflTransGen tree.Refers root id

/-- A slot of a node leads to another one. -/
def HasChild (tree : Tree) (registry : Registry) (a b : NodeId) : Prop :=
  ∃ value ∈ tree.slots registry a, value.node? = some b

/-- A node leads to another one through at least one slot. -/
def Above (tree : Tree) (registry : Registry) : NodeId → NodeId → Prop :=
  Relation.TransGen (tree.HasChild registry)

/-- A node that the root leads to through slots. -/
def InUse (tree : Tree) (registry : Registry) (id : NodeId) : Prop :=
  ∃ root, tree.root.node? = some root ∧ Relation.ReflTransGen (tree.HasChild registry) root id

theorem array?_eq_some_iff :
    tree.array? id = some elements ↔ tree.node? id = some (.array elements) := by
  simp only [array?]
  split <;> simp_all

theorem object?_eq_some_iff :
    tree.object? id = some object ↔ tree.node? id = some (.object object) := by
  simp only [object?]
  split <;> simp_all

theorem requireArray_eq_ok : tree.requireArray id = .ok elements ↔ tree.array? id = some elements := by
  simp only [requireArray]
  split <;> simp_all

theorem requireObject_eq_ok : tree.requireObject id = .ok object ↔ tree.object? id = some object := by
  simp only [requireObject]
  split <;> simp_all

theorem shape?_eq_some_iff : tree.shape? registry id = some shape ↔
    ∃ object, tree.object? id = some object ∧ registry.lookup object.shape = some shape :=
  Option.bind_eq_some_iff

end Tree

theorem Registry.shapeOf_eq_ok {registry : Registry} {name : String} {shape : ShapeId} :
    registry.shapeOf name = .ok shape ↔ registry.lookup name = some shape := by
  rw [Registry.shapeOf, mapError_eq_ok, Registry.require_eq_ok]

namespace Tree

variable {tree : Tree} {registry : Registry} {id child : NodeId} {shape : ShapeId}
  {elements : List Value} {object : Object} {value : Value}

theorem shapeOf_eq_ok : tree.shapeOf registry id = .ok shape ↔ tree.shape? registry id = some shape := by
  simp only [shapeOf, bind_eq_ok, requireObject_eq_ok, Registry.shapeOf_eq_ok, shape?_eq_some_iff]

theorem slots_of_array (h : tree.array? id = some elements) :
    tree.slots registry id = elements := by
  simp only [slots, array?_eq_some_iff.mp h]

theorem slots_of_object (h : tree.object? id = some object)
    (hshape : registry.lookup object.shape = some shape) :
    tree.slots registry id = declaredValues registry shape object := by
  simp only [slots, object?_eq_some_iff.mp h, hshape, Option.elim_some]

/-- A node is of one kind. -/
theorem array?_eq_none_of_object (h : tree.object? id = some object) : tree.array? id = none := by
  simp only [array?, object?_eq_some_iff.mp h]

theorem array?_eq_none_of_shape {registry : Registry} {shape : ShapeId}
    (h : tree.shape? registry id = some shape) : tree.array? id = none := by
  obtain ⟨object, hobject, -⟩ := shape?_eq_some_iff.mp h
  exact array?_eq_none_of_object hobject

theorem shape?_eq_none_of_array {registry : Registry} (h : (tree.array? id).isSome = true) :
    tree.shape? registry id = none := by
  cases hshape : tree.shape? registry id with
  | none => rfl
  | some shape => simp [array?_eq_none_of_shape hshape] at h

theorem lt_size_of_node? {node : Node} (h : tree.node? id = some node) : id.index < tree.size :=
  (Array.getElem?_eq_some_iff.mp h).1

/-- Two nodes are both arrays, or both objects of one shape. -/
structure SameKind (tree : Tree) (registry : Registry) (a b : NodeId) : Prop where
  array : (tree.array? a).isSome = (tree.array? b).isSome
  shape : tree.shape? registry a = tree.shape? registry b

/-- There are no more different nodes than the tree has. -/
theorem length_le_size {ids : List NodeId} (hnodup : ids.Nodup)
    (hids : ∀ id ∈ ids, id.index < tree.size) : ids.length ≤ tree.size := by
  have hindices : (ids.map NodeId.index).Nodup :=
    hnodup.map_on fun a _ b _ heq => by cases a; cases b; simpa using heq
  have hsubset : ids.map NodeId.index ⊆ List.range tree.size := by
    intro i hi
    obtain ⟨x, hx, rfl⟩ := List.mem_map.mp hi
    exact List.mem_range.mpr (hids x hx)
  simpa using (hindices.subperm hsubset).length_le

/-- The value of a field is null or one of the values that are set. -/
theorem get_mem_children {name : String} (hne : object.get name ≠ .null) :
    object.get name ∈ (Node.object object).children := by
  simp only [Object.get, Object.get?] at hne ⊢
  cases hlookup : object.fields.lookup name with
  | none => simp [hlookup] at hne
  | some value => exact List.mem_map_of_mem (mem_of_lookup hlookup)

/-- What a slot refers to, its node refers to. -/
theorem refers_of_mem_slots (h : value ∈ tree.slots registry id) (hchild : value.node? = some child) :
    tree.Refers id child := by
  simp only [slots] at h
  split at h
  · rename_i elements hnode
    exact ⟨_, hnode, List.mem_filterMap.mpr ⟨value, h, hchild⟩⟩
  · rename_i object hnode
    cases hshape : registry.lookup object.shape with
    | none => simp [hshape] at h
    | some shape =>
        simp only [hshape, Option.elim_some, declaredValues, List.mem_map] at h
        obtain ⟨field, -, rfl⟩ := h
        refine ⟨_, hnode, List.mem_filterMap.mpr ⟨_, get_mem_children fun hnull => ?_, hchild⟩⟩
        simp [hnull, Value.node?] at hchild
  · simp at h

theorem Reachable.of_refers (h : tree.Reachable id) (hrefers : tree.Refers id child) :
    tree.Reachable child := by
  obtain ⟨root, hroot, hpath⟩ := h
  exact ⟨root, hroot, hpath.tail hrefers⟩

theorem HasChild.refers (h : tree.HasChild registry id child) : tree.Refers id child := by
  obtain ⟨value, hvalue, hchild⟩ := h
  exact refers_of_mem_slots hvalue hchild

theorem Above.reaches (h : tree.Above registry id child) : tree.Reaches id child :=
  Relation.TransGen.mono (fun _ _ hstep => HasChild.refers hstep) _ _ h

theorem InUse.reachable (h : tree.InUse registry id) : tree.Reachable id := by
  obtain ⟨root, hroot, hpath⟩ := h
  exact ⟨root, hroot, Relation.ReflTransGen.mono (fun _ _ hstep => HasChild.refers hstep) _ _ hpath⟩

theorem InUse.of_hasChild (h : tree.InUse registry id) (hchild : tree.HasChild registry id child) :
    tree.InUse registry child := by
  obtain ⟨root, hroot, hpath⟩ := h
  exact ⟨root, hroot, hpath.tail hchild⟩

/-- Where the root reaches no cycle, it reaches none through slots. -/
theorem not_above_of_acyclic (h : ∀ id, tree.Reachable id → ¬ tree.Reaches id id) :
    ∀ id, tree.InUse registry id → ¬ tree.Above registry id id :=
  fun id hid habove => h id hid.reachable habove.reaches

end Tree

/-! ### Runtime tags -/

namespace Tag

variable {tree : Tree} {registry : Registry} {tag : Tag} {id : NodeId}

theorem of_object_eq_ok : Tag.of tree registry (.object id) = .ok tag ↔
    ∃ shape, tree.shape? registry id = some shape ∧ tag = .shape shape := by
  rw [Tag.of, bind_eq_ok]
  simp only [Tree.shapeOf_eq_ok, pure, Except.pure, Except.ok.injEq, @eq_comm _ tag]

/-- The tag of a value is one that can be written in front of it. -/
theorem isTerminal_of_of {value : Value} (h : Tag.of tree registry value = .ok tag) :
    tag.isTerminal = true := by
  cases value with
  | null | string _ | array _ =>
      obtain rfl := Except.ok.inj h
      rfl
  | boolean b =>
      cases b <;> (obtain rfl := Except.ok.inj h; rfl)
  | number d =>
      obtain rfl := Except.ok.inj h
      rw [Tag.ofNumber]
      split <;> rfl
  | object id =>
      obtain ⟨shape, -, rfl⟩ := of_object_eq_ok.mp h
      rfl

end Tag

end SyntaxPack
