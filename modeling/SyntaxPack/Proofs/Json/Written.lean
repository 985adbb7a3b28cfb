import SyntaxPack.Tree.Interchange
import SyntaxPack.Proofs.Encode.Nodes
/-!
# SyntaxPack.Proofs.Json.Written

The documents of values.

The document of a value is written with room for as many nodes inside one another as the tree
has. Where no node that the value leads to reaches itself, that is enough: the nodes on the way
down are all different. So the document of a reference consists of the documents of the node's
children, and nothing else has to be said about the room.
-/

namespace SyntaxPack

namespace Tree

variable {tree : Tree} {registry : Registry} {typeKey : String} {value below : Value}
  {id other : NodeId} {node : Node} {path : List NodeId} {depth : Nat}

/-- No node that a value leads to reaches itself. -/
def AcyclicFrom (tree : Tree) (value : Value) : Prop :=
  ∀ id, value.node? = some id → ∀ other, Relation.ReflTransGen tree.Refers id other →
    ¬ tree.Reaches other other

theorem refers_of_mem_children (hnode : tree.node? id = some node) (hbelow : below ∈ node.children)
    (hother : below.node? = some other) : tree.Refers id other :=
  ⟨node, hnode, List.mem_filterMap.mpr ⟨below, hbelow, hother⟩⟩

theorem AcyclicFrom.child (h : tree.AcyclicFrom value) (hid : value.node? = some id)
    (hnode : tree.node? id = some node) (hbelow : below ∈ node.children) :
    tree.AcyclicFrom below := fun _ hother last hlast =>
  h id hid last (.head (refers_of_mem_children hnode hbelow hother) hlast)

/-! ### The way down -/

/-- The nodes on a way that leads down to a value without cycles. -/
structure Descent (tree : Tree) (path : List NodeId) (value : Value) : Prop where
  acyclic : tree.AcyclicFrom value
  nodup : path.Nodup
  lt_size : ∀ above ∈ path, above.index < tree.size
  reaches : ∀ above ∈ path, ∀ id, value.node? = some id → tree.Reaches above id

/-- On the way down no node is met twice. -/
theorem Descent.notMem (h : tree.Descent path value) (hid : value.node? = some id) : id ∉ path :=
  fun hmem => h.acyclic id hid id .refl (h.reaches id hmem id hid)

theorem Descent.child (h : tree.Descent path value) (hid : value.node? = some id)
    (hnode : tree.node? id = some node) (hbelow : below ∈ node.children) :
    tree.Descent (id :: path) below where
  acyclic := h.acyclic.child hid hnode hbelow
  nodup := List.nodup_cons.mpr ⟨h.notMem hid, h.nodup⟩
  lt_size := List.forall_mem_cons.mpr ⟨lt_size_of_node? hnode, h.lt_size⟩
  reaches above habove other hother := by
    have hrefers := refers_of_mem_children hnode hbelow hother
    rcases List.mem_cons.mp habove with rfl | habove
    · exact .single hrefers
    · exact .tail (h.reaches above habove id hid) hrefers

theorem Descent.length_lt (h : tree.Descent path value) (hid : value.node? = some id)
    (hnode : tree.node? id = some node) : path.length < tree.size :=
  length_le_size (List.nodup_cons.mpr ⟨h.notMem hid, h.nodup⟩)
    (List.forall_mem_cons.mpr ⟨lt_size_of_node? hnode, h.lt_size⟩)

/-- What holds of a value if it holds of all that its node holds is true of every value without
cycles. -/
theorem AcyclicFrom.induction {motive : Value → Prop}
    (step : ∀ value, tree.AcyclicFrom value → (∀ id node, value.node? = some id →
      tree.node? id = some node → ∀ child ∈ node.children, motive child) → motive value)
    (h : tree.AcyclicFrom value) : motive value := by
  -- on the way down there is room for one node less at each step
  suffices ∀ (room : Nat) (path : List NodeId) (value : Value), tree.Descent path value →
      tree.size ≤ room + path.length → motive value from
    this tree.size [] value ⟨h, List.nodup_nil, by simp, by simp⟩ (Nat.le_add_right _ _)
  intro room
  induction room with
  | zero =>
      intro path value hway hroom
      refine step value hway.acyclic fun id node hid hnode => ?_
      have := hway.length_lt hid hnode
      omega
  | succ room ih =>
      intro path value hway hroom
      refine step value hway.acyclic fun id node hid hnode child hchild => ?_
      refine ih (id :: path) child (hway.child hid hnode hchild) ?_
      rw [List.length_cons]
      omega

/-! ### Writing -/

/-- The document of a node whose children are written in a given way. -/
def nodeToJson (typeKey : String) (write : Value → Json) : Option Node → Json
  | some (.array elements) => .array (elements.map write)
  | some (.object object) => .ofProperties <| (typeKey, .string object.shape) ::
      object.fields.map fun field => (field.1, write field.2)
  | none => .null

/-- What is written for an object: the shape under the type key, and every field under its name. -/
theorem lookup_entries (typeKey shape : String) (fields : List (String × Value))
    (write : Value → Json) (name : String) :
    ((typeKey, Json.string shape) :: fields.map fun field => (field.1, write field.2)).lookup name =
      if name = typeKey then some (.string shape) else (fields.lookup name).map write := by
  by_cases hkey : name = typeKey
  · simp [hkey]
  · rw [if_neg hkey, lookup_cons_of_ne hkey, lookup_map]

theorem nodeToJson_congr {write write' : Value → Json}
    (h : ∀ child ∈ node.children, write child = write' child) :
    nodeToJson typeKey write (some node) = nodeToJson typeKey write' (some node) := by
  cases node with
  | array elements => exact congrArg Json.array (List.map_congr_left h)
  | object object =>
      have hfields : ∀ field ∈ object.fields, (field.1, write field.2) = (field.1, write' field.2) :=
        fun field hfield => by rw [h field.2 (List.mem_map_of_mem hfield)]
      simp only [nodeToJson, List.map_congr_left hfields]

theorem valueToJson_succ (hid : value.node? = some id) : valueToJson tree typeKey (depth + 1) value =
    nodeToJson typeKey (valueToJson tree typeKey depth) (tree.node? id) := by
  cases value with
  | array other | object other =>
      obtain rfl := Option.some.inj hid
      rw [valueToJson]
      rcases tree.node? other with _ | (_ | _) <;> rfl
  | _ => simp [Value.node?] at hid

/-- What leads to no node takes no room. -/
theorem valueToJson_leaf (h : ∀ id, value.node? = some id → tree.node? id = none)
    (depth depth' : Nat) :
    valueToJson tree typeKey depth value = valueToJson tree typeKey depth' value := by
  cases value with
  | array id | object id => cases depth <;> cases depth' <;> simp [valueToJson, h id rfl]
  | _ => simp [valueToJson]

/-- More room than there are nodes changes nothing. -/
theorem valueToJson_more (h : tree.Descent path value) (hroom : tree.size ≤ depth + path.length) :
    valueToJson tree typeKey (depth + 1) value = valueToJson tree typeKey depth value := by
  induction depth generalizing path value with
  | zero =>
      refine valueToJson_leaf (fun id hid => ?_) _ _
      cases hnode : tree.node? id with
      | none => rfl
      | some node => exact absurd (h.length_lt hid hnode) (by omega)
  | succ depth ih =>
      by_cases hleaf : ∀ id, value.node? = some id → tree.node? id = none
      · exact valueToJson_leaf hleaf _ _
      · simp only [not_forall] at hleaf
        obtain ⟨id, hid, hsome⟩ := hleaf
        obtain ⟨node, hnode⟩ := Option.ne_none_iff_exists'.mp hsome
        rw [valueToJson_succ hid, valueToJson_succ hid, hnode]
        exact nodeToJson_congr fun child hchild =>
          ih (h.child hid hnode hchild) (by simp only [List.length_cons]; omega)

/-- The document of a value, with room for all nodes. -/
def document (tree : Tree) (registry : Registry) (value : Value) : Json :=
  valueToJson tree registry.typeKey tree.size value

theorem toJson_eq_document (registry : Registry) (tree : Tree) :
    tree.toJson registry = tree.document registry tree.root := rfl

/-- A reference is written as its node, with the documents of the children. -/
theorem document_node (h : tree.AcyclicFrom value) (hid : value.node? = some id)
    (hnode : tree.node? id = some node) : tree.document registry value =
      nodeToJson registry.typeKey (tree.document registry) (some node) := by
  have hway : tree.Descent [] value := ⟨h, List.nodup_nil, by simp, by simp⟩
  obtain ⟨depth, hsize⟩ := Nat.exists_eq_succ_of_ne_zero (Nat.ne_of_gt (hway.length_lt hid hnode))
  rw [document, hsize, valueToJson_succ hid, hnode]
  refine nodeToJson_congr fun child hchild => ?_
  rw [document, hsize]
  exact (valueToJson_more (hway.child hid hnode hchild) (by simp [hsize])).symm

theorem document_array {elements : List Value} (h : tree.AcyclicFrom (.array id))
    (harray : tree.array? id = some elements) :
    tree.document registry (.array id) = .array (elements.map (tree.document registry)) :=
  document_node h rfl (array?_eq_some_iff.mp harray)

theorem document_object {object : Object} (h : tree.AcyclicFrom (.object id))
    (hobject : tree.object? id = some object) : tree.document registry (.object id) =
      .ofProperties ((registry.typeKey, .string object.shape) ::
        object.fields.map fun field => (field.1, tree.document registry field.2)) :=
  document_node h rfl (object?_eq_some_iff.mp hobject)

end Tree

end SyntaxPack
