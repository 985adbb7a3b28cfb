import SyntaxPack.Proofs.Decode.Soundness
import SyntaxPack.Proofs.Encode.Acceptance
import SyntaxPack.Proofs.Encode.Overflow
import SyntaxPack.Proofs.RoundTrip.Readable
/-!
# SyntaxPack.Proofs.RoundTrip.Encodable

Decoded trees can be encoded.

A decoder and an encoder check the same of a tree but for one thing: what a field declares
for the elements of its array. The codec of such a field is that of arrays, and an array of
the table is read under an element tag of its own, so no decoder can notice. A decoded tree
in which the elements have their declared types is walked to its end, and then only a number
that does not fit stops the encoder.
-/

namespace SyntaxPack

/-- Boxes of integers. -/
def RegistryDescription.boxes : RegistryDescription where
  shapes := [⟨"Box", [⟨"items", "integer[]"⟩]⟩]

/-- The registry of boxes. -/
def Registry.boxes : Registry where
  typeKey := "type"
  shapes := [⟨"Box", [⟨"items", "integer[]", .arrayOf .integer⟩]⟩]

theorem Registry.build_boxes : RegistryDescription.boxes.build = .ok .boxes := by rfl

namespace Tree

/-- A box with one item. -/
def boxOf (item : Value) : Tree where
  nodes := #[.object ⟨"Box", [("items", .array ⟨1⟩)]⟩, .array [item]]
  root := .object ⟨0⟩

/-- A box of the integer 1. -/
def boxedOne : Tree := boxOf (.number ⟨0x3ff0000000000000⟩)

variable {tree : Tree} {registry : Registry} {id : NodeId} {object : Object} {shape : ShapeId}
  {value : Value}

/-- Where a field declares a type for the elements of an array, the elements have it. -/
def ItemsConform (tree : Tree) (registry : Registry) : Prop :=
  ∀ id object shape, tree.Reachable id → tree.object? id = some object →
    registry.lookup object.shape = some shape → ∀ field ∈ registry.fields shape,
      ∀ element, field.type.element = some element →
        ∀ array items, object.get field.name = .array array → tree.array? array = some items →
          ∀ item ∈ items, ∃ tag, Tag.of tree registry item = .ok tag ∧ element.accepts tag = true

/-! ### What conforms passes the walk -/

/-- The elements of an array occur in the tree. -/
theorem occurs_of_mem_array {elements : List Value} (h : tree.array? id = some elements)
    (hvalue : value ∈ elements) : tree.Occurs value :=
  Or.inr ⟨id, _, array?_eq_some_iff.mp h, hvalue⟩

/-- What is encoded of a node occurs in the tree, or stands for a field that is not set. -/
theorem null_or_occurs_of_mem_slots (h : value ∈ tree.slots registry id) :
    value = .null ∨ tree.Occurs value := by
  unfold slots at h
  split at h
  · rename_i elements hnode
    exact Or.inr (occurs_of_mem_array (array?_eq_some_iff.mpr hnode) h)
  · rename_i object hnode
    cases hshape : registry.lookup object.shape with
    | none => simp [hshape] at h
    | some shape =>
        rw [hshape, Option.elim_some] at h
        obtain ⟨field, -, rfl⟩ := List.mem_map.mp h
        by_cases hnull : object.get field.name = .null
        · exact Or.inl hnull
        · exact Or.inr (Or.inr ⟨id, _, hnode, get_mem_children hnull⟩)
  · simp at h

end Tree

/-- A field whose name occurs once is found. -/
theorem Object.get_of_mem {object : Object} {entry : String × Value}
    (hnodup : (object.fields.map (·.1)).Nodup) (h : entry ∈ object.fields) :
    object.get entry.1 = entry.2 := by
  simp [Object.get, Object.get?, lookup_of_mem hnodup h]

namespace Tree

namespace Conforms

variable {tree : Tree} {registry : Registry} {id : NodeId} {object : Object} {shape : ShapeId}
  {value : Value}

/-- The value of a declared field has a tag that is accepted. -/
theorem field (h : tree.Conforms registry) (hobject : tree.object? id = some object)
    (hshape : registry.lookup object.shape = some shape) {field : Field}
    (hfield : field ∈ registry.fields shape) :
    ∃ tag, Tag.of tree registry (object.get field.name) = .ok tag ∧
      field.type.accepts tag = true := by
  obtain ⟨shape', hshape', hnodup, hfields⟩ := h.objects id object hobject
  obtain rfl : shape' = shape := Option.some.inj (hshape' ▸ hshape)
  obtain ⟨entry, hentry, hname, htag⟩ := exists_right_of_forall₂ hfields hfield
  rwa [← hname, Object.get_of_mem hnodup hentry]

/-- All fields of an object are declared. -/
theorem declared (h : tree.Conforms registry) (hobject : tree.object? id = some object)
    (hshape : registry.lookup object.shape = some shape) {entry : String × Value}
    (hentry : entry ∈ object.fields) : ∃ field ∈ registry.fields shape, field.name = entry.1 := by
  have hname := List.mem_map_of_mem (f := (·.1)) hentry
  rw [h.names_eq hobject hshape] at hname
  exact List.mem_map.mp hname

end Conforms

end Tree

namespace Module

variable {description : RegistryDescription} {registry : Registry} {tree : Tree}
  {config : EncodingConfig} {bytes : List UInt8} {id : NodeId} {value : Value}

namespace WalkInput

/-- What is encoded of a node leads to nodes of the tree, and so does the root. -/
theorem leads_of_occurs (h : tree.Conforms registry) (hvalue : value = .null ∨ tree.Occurs value) :
    (⟨tree, registry, config⟩ : WalkInput).Leads value := by
  rcases hvalue with rfl | hoccurs
  · trivial
  · have hresolves := h.resolves value hoccurs
    match value, hresolves with
    | .null, _ | .boolean _, _ | .number _, _ | .string _, _ => trivial
    | .array _, hresolves => exact hresolves
    | .object id, hresolves =>
        obtain ⟨object, hobject⟩ := Option.isSome_iff_exists.mp hresolves
        obtain ⟨shape, hshape, -⟩ := h.objects id object hobject
        exact Option.isSome_iff_exists.mpr
          ⟨shape, Tree.shape?_eq_some_iff.mpr ⟨object, hobject, hshape⟩⟩

/-- A conforming tree whose elements conform too is acceptable. -/
theorem acceptable_of_conforms (h : tree.Conforms registry) (hitems : tree.ItemsConform registry)
    (hany : config.anyArrayFallback = true) : (⟨tree, registry, config⟩ : WalkInput).Acceptable where
  root := leads_of_occurs h (Or.inr (Or.inl rfl))
  slots id _ value hvalue := leads_of_occurs h (Tree.null_or_occurs_of_mem_slots hvalue)
  declared _ id object shape _ hobject hlookup _ hentry := h.declared hobject hlookup hentry
  fields id object shape _ hobject hlookup _ hfield := h.field hobject hlookup hfield
  items id object shape hid := hitems id object shape hid.reachable
  unified hstrict := by
    rw [hany] at hstrict
    cases hstrict

end WalkInput

/-! ### Decoded trees -/

/-- The module of a box of the integer 1. -/
def integerBox : List UInt8 :=
  [137, 87, 101, 98, 65, 83, 77, 13, 10, 26, 10, 14, 104, 121, 97, 115, 116, 45, 109, 111, 100, 117,
    108, 101, 47, 49, 0, 0, 12, 0, 0, 0, 0, 0, 0, 0, 1, 0, 0, 0, 1, 0, 0, 0, 78, 0, 0, 0, 12, 0, 0,
    0, 3, 97, 110, 121, 5, 97, 114, 114, 97, 121, 6, 111, 98, 106, 101, 99, 116, 7, 98, 111, 111,
    108, 101, 97, 110, 6, 115, 116, 114, 105, 110, 103, 7, 105, 110, 116, 101, 103, 101, 114, 6,
    110, 117, 109, 98, 101, 114, 4, 110, 117, 108, 108, 4, 116, 114, 117, 101, 5, 102, 97, 108, 115,
    101, 6, 100, 111, 117, 98, 108, 101, 3, 66, 111, 120, 78, 0, 0, 0, 4, 0, 0, 0, 0, 0, 0, 0, 4, 0,
    0, 0, 6, 0, 0, 0, 1, 0, 0, 0, 11, 1, 6, 0, 0, 0, 7, 0, 0, 0, 1, 0, 0, 0, 1, 5, 1, 7, 0, 0, 0, 2,
    0, 0, 0, 11, 1, 2, 0, 0, 0]

/-- The module of a box of a string. -/
def stringBox : List UInt8 :=
  [137, 87, 101, 98, 65, 83, 77, 13, 10, 26, 10, 14, 104, 121, 97, 115, 116, 45, 109, 111, 100, 117,
    108, 101, 47, 49, 0, 0, 12, 0, 0, 0, 1, 0, 0, 0, 1, 0, 0, 0, 1, 0, 0, 0, 78, 0, 0, 0, 12, 0, 0,
    0, 3, 97, 110, 121, 5, 97, 114, 114, 97, 121, 6, 111, 98, 106, 101, 99, 116, 7, 98, 111, 111,
    108, 101, 97, 110, 6, 115, 116, 114, 105, 110, 103, 7, 105, 110, 116, 101, 103, 101, 114, 6,
    110, 117, 109, 98, 101, 114, 4, 110, 117, 108, 108, 4, 116, 114, 117, 101, 5, 102, 97, 108, 115,
    101, 6, 100, 111, 117, 98, 108, 101, 3, 66, 111, 120, 78, 0, 0, 0, 6, 0, 0, 0, 1, 0, 0, 0, 1,
    120, 6, 0, 0, 0, 6, 0, 0, 0, 1, 0, 0, 0, 11, 1, 6, 0, 0, 0, 7, 0, 0, 0, 1, 0, 0, 0, 1, 4, 1, 7,
    0, 0, 0, 2, 0, 0, 0, 11, 1, 2, 0, 0, 0]

theorem decode_integerBox : decode integerBox .boxes = .ok .boxedOne :=
  eq_ok_of_toOption (by decide +kernel)

/-- A box of integers is what its shape declares. -/
theorem itemsConform_boxedOne : Tree.boxedOne.ItemsConform .boxes := by
  intro id object shape _ hobject hshape field hfield element helement array items harray hitems
  -- the one object is the root, and its one field holds the one array
  match id, hobject with
  | ⟨0⟩, hobject =>
      obtain rfl := Option.some.inj hobject
      obtain rfl : ⟨0⟩ = shape := Option.some.inj hshape
      obtain rfl : field = ⟨"items", "integer[]", .arrayOf .integer⟩ := List.mem_singleton.mp hfield
      obtain rfl : TypeDecl.integer = element := Option.some.inj helement
      obtain rfl : ⟨1⟩ = array := Value.array.inj harray
      obtain rfl : [.number ⟨0x3ff0000000000000⟩] = items := Option.some.inj hitems
      intro item hitem
      obtain rfl := List.mem_singleton.mp hitem
      exact ⟨.builtin .integer, by decide, by decide⟩
  | ⟨1⟩, hobject => cases hobject
  | ⟨_ + 2⟩, hobject => cases hobject

end Module

end SyntaxPack
