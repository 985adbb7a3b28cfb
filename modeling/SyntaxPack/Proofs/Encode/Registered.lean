import SyntaxPack.Proofs.Encode.Nodes
import SyntaxPack.Proofs.Encode.Objects
import SyntaxPack.Proofs.Encode.Tags
/-!
# SyntaxPack.Proofs.Encode.Registered

What stands in the tables of a module while it is built.

`Filled` is what the tables always satisfy: they are valid, an object stands in the
table of its shape, and the tag table lists the shapes in use. The walk only ever
adds to such tables; each of its steps is described by `Registered`.
-/

namespace SyntaxPack

namespace Module

variable {tree : Tree} {registry : Registry} {shapes : List ShapeId} {m m' : Module}
  {id : NodeId} {shape : ShapeId}

/-- An object is in the table of a shape. -/
def HasObject (m : Module) (shape : ShapeId) (id : NodeId) : Prop :=
  ∃ t, m.objects.table? shape = some t ∧ id ∈ t.names

/-- A node is in the table for its kind. -/
def HasNode (m : Module) (tree : Tree) (registry : Registry) (id : NodeId) : Prop :=
  ((tree.array? id).isSome = true ∧ id ∈ m.arrays.names) ∨
    ∃ shape, tree.shape? registry id = some shape ∧ m.HasObject shape id

/-- What is registered is an array or an object of a registered shape. -/
theorem HasNode.kind (h : m.HasNode tree registry id) :
    (tree.array? id).isSome = true ∨ ∃ shape, tree.shape? registry id = some shape := by
  rcases h with ⟨harray, -⟩ | ⟨shape, hshape, -⟩
  · exact Or.inl harray
  · exact Or.inr ⟨shape, hshape⟩

/-- What a value refers to is in the tables. -/
def Holds (m : Module) (tree : Tree) (registry : Registry) : Value → Prop
  | .string s => s ∈ m.strings.names
  | .array id => (tree.array? id).isSome = true ∧ id ∈ m.arrays.names
  | .object id => ∃ shape, tree.shape? registry id = some shape ∧ m.HasObject shape id
  | _ => True

/-- The tables of a module are valid and hold nodes of a tree: arrays, and objects of
shapes whose tags are listed, each in the table of its shape. -/
structure Filled (tree : Tree) (registry : Registry) (shapes : List ShapeId) (m : Module) :
    Prop where
  strings : m.strings.Valid
  strings_plain : m.strings.Plain
  arrays : m.arrays.Valid
  wellShaped : m.objects.WellShaped
  objects : ∀ shape t, m.objects.table? shape = some t → UniqueTable.Valid t
  array_of_mem : ∀ id ∈ m.arrays.names, (tree.array? id).isSome = true
  shape_of_mem : ∀ shape t, m.objects.table? shape = some t → ∀ id ∈ t.names,
    ∃ own, tree.shape? registry id = some own ∧ m.objects.Together shape own
  nonempty : m.objects.partitioned = true →
    ∀ shape t, m.objects.table? shape = some t → t.names ≠ []
  tags : TagTable registry shapes m.tags
  mem_shapes : ∀ shape id, tree.shape? registry id = some shape → m.HasObject shape id →
    shape ∈ shapes

/-- No table is finalized. -/
structure Building (m : Module) : Prop where
  tags : m.tags.order = none
  strings : m.strings.order = none
  arrays : m.arrays.order = none
  objects : ∀ shape t, m.objects.table? shape = some t → t.order = none

/-- No node was merged into another one. -/
structure Unmerged (m : Module) : Prop where
  arrays : m.arrays.Plain
  objects : ∀ shape t, m.objects.table? shape = some t → UniqueTable.Plain t

/-- The tables as the walk fills them. -/
structure Gathered (tree : Tree) (registry : Registry) (m : Module) : Prop where
  filled : ∃ shapes, Filled tree registry shapes m
  building : m.Building
  unmerged : m.Unmerged

/-- What is in the tables of a module is in those of another one. -/
structure Extends (m m' : Module) : Prop where
  strings : ∀ s ∈ m.strings.names, s ∈ m'.strings.names
  arrays : ∀ id ∈ m.arrays.names, id ∈ m'.arrays.names
  objects : ∀ shape id, m.HasObject shape id → m'.HasObject shape id
  partitioned : m'.objects.partitioned = m.objects.partitioned

namespace Extends

variable {m'' : Module}

theorem refl (m : Module) : Extends m m :=
  ⟨fun _ h => h, fun _ h => h, fun _ _ h => h, rfl⟩

theorem trans (h : Extends m m') (h' : Extends m' m'') : Extends m m'' where
  strings s hs := h'.strings s (h.strings s hs)
  arrays id hid := h'.arrays id (h.arrays id hid)
  objects shape id hid := h'.objects shape id (h.objects shape id hid)
  partitioned := h'.partitioned.trans h.partitioned

theorem holds (h : Extends m m') {value : Value} (hv : m.Holds tree registry value) :
    m'.Holds tree registry value := by
  match value, hv with
  | .null, _ | .boolean _, _ | .number _, _ => exact trivial
  | .string s, hv => exact h.strings s hv
  | .array id, ⟨hid, hmem⟩ => exact ⟨hid, h.arrays id hmem⟩
  | .object id, ⟨shape, hshape, hobject⟩ => exact ⟨shape, hshape, h.objects shape id hobject⟩

end Extends

/-- A value that refers to a node of the tables refers to one of its kind. -/
theorem Holds.hasNode {value : Value} (h : m.Holds tree registry value)
    (hid : value.node? = some id) : m.HasNode tree registry id := by
  cases value with
  | array other =>
      obtain rfl : other = id := Option.some.inj hid
      exact Or.inl h
  | object other =>
      obtain rfl : other = id := Option.some.inj hid
      exact Or.inr h
  | null | boolean _ | number _ | string _ => simp [Value.node?] at hid

theorem HasNode.exists_node (h : m.HasNode tree registry id) : ∃ node, tree.node? id = some node := by
  rcases h with ⟨harray, -⟩ | ⟨shape, hshape, -⟩
  · obtain ⟨elements, helements⟩ := Option.isSome_iff_exists.mp harray
    exact ⟨_, Tree.array?_eq_some_iff.mp helements⟩
  · obtain ⟨object, hobject, -⟩ := Tree.shape?_eq_some_iff.mp hshape
    exact ⟨_, Tree.object?_eq_some_iff.mp hobject⟩

/-- Every array of the table is one, whatever else its id could stand for. -/
theorem hasNode_array_iff (h : (tree.array? id).isSome = true) :
    m.HasNode tree registry id ↔ id ∈ m.arrays.names := by
  constructor
  · rintro (⟨-, hmem⟩ | ⟨shape, hshape, -⟩)
    · exact hmem
    · obtain ⟨object, hobject, -⟩ := Tree.shape?_eq_some_iff.mp hshape
      simp [Tree.array?_eq_none_of_object hobject] at h
  · exact fun hmem => Or.inl ⟨h, hmem⟩

theorem hasNode_object_iff (h : tree.shape? registry id = some shape) :
    m.HasNode tree registry id ↔ m.HasObject shape id := by
  constructor
  · rintro (⟨harray, -⟩ | ⟨other, hother, hobject⟩)
    · obtain ⟨object, hobject, -⟩ := Tree.shape?_eq_some_iff.mp h
      simp [Tree.array?_eq_none_of_object hobject] at harray
    · obtain rfl : other = shape := Option.some.inj (hother.symm.trans h)
      exact hobject
  · exact fun hobject => Or.inr ⟨shape, h, hobject⟩

/-! ### Steps of the walk -/

/-- What registering a node, or none, does to the tables. -/
structure Registered (tree : Tree) (registry : Registry) (node : Option NodeId) (m m' : Module) :
    Prop where
  gathered : m'.Gathered tree registry
  grows : Extends m m'
  elementTags : m'.elementTags = m.elementTags
  hasNode_iff : ∀ id, m'.HasNode tree registry id ↔ m.HasNode tree registry id ∨ node = some id

theorem Gathered.internString (h : m.Gathered tree registry) {s : String}
    (hrun : m.internString s = .ok m') :
    Registered tree registry none m m' ∧ s ∈ m'.strings.names := by
  obtain ⟨shapes, hf⟩ := h.filled
  obtain ⟨⟨a, strings⟩, hintern, h₁⟩ := bind_eq_ok.mp hrun
  simp only [Except.ok.injEq] at h₁
  subst h₁
  obtain ⟨-, hi⟩ := hf.strings.interned hintern
  have hmem : ∀ r ∈ m.strings.names, r ∈ strings.names := fun r hr => hi.mem_names.mpr (Or.inl hr)
  refine ⟨⟨⟨⟨shapes, { hf with strings := hi.valid, strings_plain := hi.plain hf.strings_plain }⟩,
    { h.building with strings := hi.order.trans h.building.strings }, ⟨h.unmerged.arrays, h.unmerged.objects⟩⟩,
    ⟨hmem, fun _ hid => hid, fun _ _ hid => hid, rfl⟩, rfl, fun id => ?_⟩, hi.mem_names.mpr (Or.inr rfl)⟩
  simp [HasNode, HasObject]

theorem Gathered.registerArray (h : m.Gathered tree registry) {isNew : Bool}
    (harray : (tree.array? id).isSome = true) (hrun : m.registerArray id = .ok (isNew, m')) :
    Registered tree registry (some id) m m' ∧ (isNew = true ↔ ¬ m.HasNode tree registry id) := by
  obtain ⟨shapes, hf⟩ := h.filled
  obtain ⟨⟨a, arrays⟩, hintern, h₁⟩ := bind_eq_ok.mp hrun
  simp only [Except.ok.injEq, Prod.mk.injEq] at h₁
  obtain ⟨rfl, rfl⟩ := h₁
  obtain ⟨-, hi⟩ := hf.arrays.interned hintern
  have hmem : ∀ x ∈ m.arrays.names, x ∈ arrays.names := fun x hx => hi.mem_names.mpr (Or.inl hx)
  have hall : ∀ x ∈ arrays.names, (tree.array? x).isSome = true := fun x hx =>
    (hi.mem_names.mp hx).elim (hf.array_of_mem x) fun heq => heq ▸ harray
  refine ⟨⟨⟨⟨shapes, { hf with arrays := hi.valid, array_of_mem := hall }⟩,
    { h.building with arrays := hi.order.trans h.building.arrays },
    { h.unmerged with arrays := hi.plain h.unmerged.arrays }⟩,
    ⟨fun _ hs => hs, hmem, fun _ _ hid => hid, rfl⟩, rfl, fun x => ?_⟩, ?_⟩
  · simp only [HasNode, hi.mem_names, HasObject, Option.some.injEq]
    constructor
    · rintro (⟨hx, hx' | rfl⟩ | hx)
      · exact Or.inl (Or.inl ⟨hx, hx'⟩)
      · exact Or.inr rfl
      · exact Or.inl (Or.inr hx)
    · rintro ((⟨hx, hx'⟩ | hx) | rfl)
      · exact Or.inl ⟨hx, Or.inl hx'⟩
      · exact Or.inr hx
      · exact Or.inl ⟨harray, Or.inr rfl⟩
  · rw [hasNode_array_iff harray, Option.isNone_iff_eq_none, Table.get?_eq_none_iff]

theorem tableOrEmpty_valid (hf : Filled tree registry shapes m) (shape : ShapeId) :
    UniqueTable.Valid (m.objects.tableOrEmpty registry shape) := by
  rw [ObjectTables.tableOrEmpty]
  cases ht : m.objects.table? shape with
  | some t => exact hf.objects shape t ht
  | none => exact UniqueTable.valid_empty _ _

theorem mem_tableOrEmpty : id ∈ (m.objects.tableOrEmpty registry shape).names ↔
    m.HasObject shape id := by
  rw [ObjectTables.tableOrEmpty, HasObject]
  cases ht : m.objects.table? shape with
  | some t => simp
  | none => simp [UniqueTable.names_empty]

/-- Objects of shapes that are together are in the same table. -/
theorem hasObject_congr {other : ShapeId} (h : m.objects.Together shape other) :
    m.HasObject shape id ↔ m.HasObject other id := by
  rw [HasObject, HasObject, ObjectTables.table?_congr h]

/-- What interning an object in the table of its shape does to all tables. -/
structure InternedObject (registry : Registry) (m : Module) (shape : ShapeId) (id : NodeId)
    (t : UniqueTable NodeId) (objects : ObjectTables) : Prop where
  updated : m.objects.Updated shape t objects
  interned : (m.objects.tableOrEmpty registry shape).Interned id t

namespace InternedObject

variable {t : UniqueTable NodeId} {objects : ObjectTables}

/-- The new object is in the table of its shape, and nothing else is new. -/
theorem hasObject_iff (h : InternedObject registry m shape id t objects) {other : ShapeId}
    {x : NodeId} : (∃ u, objects.table? other = some u ∧ x ∈ u.names) ↔
      m.HasObject other x ∨ (m.objects.Together shape other ∧ x = id) := by
  by_cases htogether : m.objects.Together shape other
  · rw [h.updated.together other htogether, ← hasObject_congr htogether,
      ← @mem_tableOrEmpty registry m x]
    simp [h.interned.mem_names, htogether]
  · rw [h.updated.apart other htogether]
    simp [HasObject, htogether]

section Filled

variable {tags : Table String Tag} (h : InternedObject registry m shape id t objects)
  (hshape : tree.shape? registry id = some shape)
include h hshape

theorem filled {shapes' : List ShapeId} (hf : Filled tree registry shapes m)
    (htags : TagTable registry shapes' tags) (hold : ∀ other ∈ shapes, other ∈ shapes')
    (hnew : shape ∈ shapes') : Filled tree registry shapes' { m with tags := tags, objects := objects } where
  strings := hf.strings
  strings_plain := hf.strings_plain
  arrays := hf.arrays
  wellShaped := h.updated.wellShaped
  objects := h.updated.forall_table h.interned.valid hf.objects
  array_of_mem := hf.array_of_mem
  shape_of_mem other u hother x hx := by
    rcases h.hasObject_iff.mp ⟨u, hother, hx⟩ with ⟨v, hv, hxv⟩ | ⟨htogether, rfl⟩
    · obtain ⟨own, hown, htogether⟩ := hf.shape_of_mem other v hv x hxv
      exact ⟨own, hown, h.updated.together_iff.mpr htogether⟩
    · exact ⟨shape, hshape, h.updated.together_iff.mpr htogether.symm⟩
  nonempty hp := h.updated.forall_table (List.ne_nil_of_mem (h.interned.mem_names.mpr (Or.inr rfl)))
    (hf.nonempty (h.updated.partitioned ▸ hp))
  tags := htags
  mem_shapes other x hx hhas := by
    rcases h.hasObject_iff.mp hhas with hmem | ⟨-, rfl⟩
    · exact hold other (hf.mem_shapes other x hx hmem)
    · exact Option.some.inj (hshape.symm.trans hx) ▸ hnew

/-- Only the object itself is new. -/
theorem hasNode_iff {x : NodeId} :
    HasNode { m with tags := tags, objects := objects } tree registry x ↔
      m.HasNode tree registry x ∨ id = x := by
  have hobjects : ∀ other, HasObject { m with tags := tags, objects := objects } other x ↔
      m.HasObject other x ∨ (m.objects.Together shape other ∧ x = id) := fun _ => h.hasObject_iff
  simp only [HasNode, hobjects]
  constructor
  · rintro (hx | ⟨other, hother, hx | ⟨-, rfl⟩⟩)
    · exact Or.inl (Or.inl hx)
    · exact Or.inl (Or.inr ⟨other, hother, hx⟩)
    · exact Or.inr rfl
  · rintro ((hx | ⟨other, hother, hx⟩) | rfl)
    · exact Or.inl hx
    · exact Or.inr ⟨other, hother, Or.inl hx⟩
    · exact Or.inr ⟨shape, hshape, Or.inr ⟨Or.inr rfl, rfl⟩⟩

end Filled

end InternedObject

theorem Unmerged.tableOrEmpty (h : m.Unmerged) (registry : Registry) (shape : ShapeId) :
    UniqueTable.Plain (m.objects.tableOrEmpty registry shape) := by
  rw [ObjectTables.tableOrEmpty]
  cases ht : m.objects.table? shape with
  | some u => exact h.objects shape u ht
  | none => exact fun x hx => by simp [UniqueTable.names_empty] at hx

theorem Gathered.registerObject (h : m.Gathered tree registry) (hr : registry.Valid) {isNew : Bool}
    (hshape : tree.shape? registry id = some shape)
    (hrun : m.registerObject registry shape id = .ok (isNew, m')) :
    Registered tree registry (some id) m m' ∧ (isNew = true ↔ ¬ m.HasNode tree registry id) := by
  obtain ⟨shapes, hf⟩ := h.filled
  obtain ⟨⟨a, tags⟩, htags, h₁⟩ := bind_eq_ok.mp hrun
  obtain ⟨objects, hobjects, h₂⟩ := bind_eq_ok.mp h₁
  obtain ⟨rfl, rfl⟩ := Prod.mk.inj (Except.ok.inj h₂)
  obtain ⟨t, ht, hu⟩ := hf.wellShaped.updated hobjects
  obtain ⟨⟨b, t'⟩, hintern, h₃⟩ := bind_eq_ok.mp ht
  obtain rfl := Except.ok.inj h₃
  obtain ⟨horder, hi⟩ := (tableOrEmpty_valid hf shape).interned hintern
  have hio : InternedObject registry m shape id t' objects := ⟨hu, hi⟩
  obtain ⟨object, hobject, hlookup⟩ := Tree.shape?_eq_some_iff.mp hshape
  obtain ⟨htagOrder, htags'⟩ := hf.tags.add hr (Registry.lookup_eq_some hlookup).1 htags
  have hfilled := hio.filled hshape hf htags'
    (fun other hother => by split <;> simp [hother]) (by split <;> simp_all)
  have hbuilding : Building { m with tags := tags, objects := objects } :=
    { h.building with tags := htagOrder
                      objects := hu.forall_table (hi.order.trans horder) h.building.objects }
  have hunmerged : Unmerged { m with tags := tags, objects := objects } :=
    { h.unmerged with objects := hu.forall_table (hi.plain (h.unmerged.tableOrEmpty registry shape))
                        h.unmerged.objects }
  refine ⟨⟨⟨⟨_, hfilled⟩, hbuilding, hunmerged⟩, ⟨fun _ hs => hs, fun _ hx => hx,
    fun other x hx => hio.hasObject_iff.mpr (Or.inl hx), hu.partitioned⟩, rfl, fun x => ?_⟩, ?_⟩
  · rw [hio.hasNode_iff hshape, Option.some.injEq]
  · rw [hasNode_object_iff hshape, HasObject, Option.isNone_iff_eq_none]
    cases ht : m.objects.table? shape with
    | none => simp
    | some u => simp [Table.get?_eq_none_iff]

end Module

end SyntaxPack
