import SyntaxPack.Module.Write
import SyntaxPack.Proofs.Codec
import SyntaxPack.Proofs.Encode.Built
/-!
# SyntaxPack.Proofs.Encode.Slots

The slots of a finalized module.

`FitsSlot` says that a value can stand in a slot: it is in the tables, and the layout of the
slot accepts its tag. The checks of the walk give this for every field, every element
and the root. What a value that fits looks like under the tag of its slot is then one of
the few forms of `Stored`.
-/

namespace SyntaxPack

namespace Tag

variable {tree : Tree} {registry : Registry} {tag t : Tag} {nullable : Bool} {value : Value}

/-- The forms of a value under a known tag. -/
inductive Stored (tree : Tree) (registry : Registry) : Tag → Bool → Value → Prop
  | null (nullable : Bool) : Stored tree registry (.builtin .null) nullable .null
  | trueValue (nullable : Bool) : Stored tree registry (.builtin .trueValue) nullable (.boolean true)
  | falseValue (nullable : Bool) :
      Stored tree registry (.builtin .falseValue) nullable (.boolean false)
  | integer (nullable : Bool) {d : Double} {i : Int} (h : d.integerPayload = some i) :
      Stored tree registry (.builtin .integer) nullable (.number d)
  | double (nullable : Bool) (d : Double) :
      Stored tree registry (.builtin .double) nullable (.number d)
  | string (nullable : Bool) (s : String) :
      Stored tree registry (.builtin .string) nullable (.string s)
  | array (nullable : Bool) (id : NodeId) :
      Stored tree registry (.builtin .array) nullable (.array id)
  | object (nullable : Bool) {id : NodeId} {shape : ShapeId}
      (h : tree.shape? registry id = some shape) :
      Stored tree registry (.builtin .object) nullable (.object id)
  | shape (nullable : Bool) {id : NodeId} {shape : ShapeId}
      (h : tree.shape? registry id = some shape) :
      Stored tree registry (.shape shape) nullable (.object id)
  | absent {tag : Tag} (h : tag.isReference = true) : Stored tree registry tag true .null

theorem holds_self (h : tag.isTerminal = true) : tag.holds tag = true := by
  rcases tag with (_ | _) | shape
  all_goals simp_all [isTerminal, holds]

/-- A value whose tag is stored under another one has a form there. -/
theorem stored_of_holds (hvalue : Tag.of tree registry value = .ok t) (h : tag.holds t = true) :
    Stored tree registry tag nullable value := by
  have hterminal := isTerminal_of_of hvalue
  have hcases : tag = t ∨ (tag = .builtin .object ∧ t.isShape = true) ∨
      (tag = .builtin .double ∧ t = .builtin .integer) := by
    rcases tag with (_ | _) | shape
    all_goals simp_all [holds]
    tauto
  cases value with
  | null =>
      obtain rfl := Except.ok.inj hvalue
      obtain rfl : tag = .builtin .null := by simpa [isShape] using hcases
      exact .null _
  | boolean b =>
      cases b with
      | true =>
          obtain rfl := Except.ok.inj hvalue
          obtain rfl : tag = .builtin .trueValue := by simpa [isShape] using hcases
          exact .trueValue _
      | false =>
          obtain rfl := Except.ok.inj hvalue
          obtain rfl : tag = .builtin .falseValue := by simpa [isShape] using hcases
          exact .falseValue _
  | number d =>
      obtain rfl := Except.ok.inj hvalue
      cases hpayload : d.integerPayload with
      | some i =>
          -- An integer may also stand in a slot for doubles.
          have htag : tag = .builtin .integer ∨ tag = .builtin .double := by
            simpa [ofNumber, hpayload, isShape] using hcases
          rcases htag with rfl | rfl
          · exact .integer _ hpayload
          · exact .double _ d
      | none =>
          obtain rfl : tag = .builtin .double := by
            simpa [ofNumber, hpayload, isShape] using hcases
          exact .double _ d
  | string s =>
      obtain rfl := Except.ok.inj hvalue
      obtain rfl : tag = .builtin .string := by simpa [isShape] using hcases
      exact .string _ s
  | array id =>
      obtain rfl := Except.ok.inj hvalue
      obtain rfl : tag = .builtin .array := by simpa [isShape] using hcases
      exact .array _ id
  | object id =>
      obtain ⟨shape, hshape, rfl⟩ := of_object_eq_ok.mp hvalue
      have htag : tag = .shape shape ∨ tag = .builtin .object := by simpa [isShape] using hcases
      rcases htag with rfl | rfl
      · exact .shape _ hshape
      · exact .object _ hshape

/-- A value that a slot of a fixed tag accepts has a form there. -/
theorem stored_of_accepts (hvalue : Tag.of tree registry value = .ok t)
    (haccepts : (Codec.fixed tag nullable).accepts t = true)
    (hnullable : nullable = true → tag.isReference = true ∨ tag = .builtin .null) :
    Stored tree registry tag nullable value := by
  simp only [Codec.accepts, Bool.or_eq_true, Bool.and_eq_true, decide_eq_true_eq] at haccepts
  rcases haccepts with hholds | ⟨rfl, rfl⟩
  · exact stored_of_holds hvalue hholds
  · obtain rfl : value = .null := by
      have hnull : ∀ d, ofNumber d ≠ .builtin .null := fun d => by
        rw [ofNumber]
        split <;> simp
      cases value with
      | null => rfl
      | boolean b => cases b <;> simp [Tag.of] at hvalue
      | number d => exact absurd (Except.ok.inj hvalue) (hnull d)
      | string _ | array _ => simp [Tag.of] at hvalue
      | object id =>
          obtain ⟨shape, -, htag⟩ := of_object_eq_ok.mp hvalue
          simp at htag
    rcases hnullable rfl with hreference | rfl
    · exact .absent hreference
    · exact .null _

end Tag

namespace Module

variable {input : WalkInput} {shapes : List ShapeId} {rank : NodeId → Nat} {m : Module}
  {id : NodeId} {shape : ShapeId} {value : Value} {codec : Codec}

/-- A value can stand in a slot. -/
structure FitsSlot (input : WalkInput) (m : Module) (codec : Codec) (value : Value) : Prop where
  holds : m.Holds input.tree input.registry value
  tag : ∃ tag, Tag.of input.tree input.registry value = .ok tag ∧ codec.accepts tag = true
  nullable : ∀ tag, codec = .fixed tag true → tag.isReference = true ∨ tag = .builtin .null
  registered : ∀ id ∈ codec.shapeIds, id.index < input.registry.shapes.length
  shared : ∀ nullable, codec = .fixed (.builtin .object) nullable →
    input.config.partitionedTables = false

/-- What fits under a fixed tag has a form there. -/
theorem FitsSlot.stored {tag : Tag} {nullable : Bool}
    (h : FitsSlot input m (.fixed tag nullable) value) :
    Tag.Stored input.tree input.registry tag nullable value := by
  obtain ⟨t, ht, haccepts⟩ := h.tag
  exact Tag.stored_of_accepts ht haccepts fun hnull => h.nullable tag (hnull ▸ rfl)

theorem FitsSlot.registered_fixed {tag : Tag} {nullable : Bool}
    (h : FitsSlot input m (.fixed tag nullable) value) : tag.Registered input.registry := by
  cases tag with
  | builtin b => exact trivial
  | shape id => exact h.registered id (List.mem_singleton_self id)

theorem WalkInput.elementTag_eq_ok {tags : List Tag} {tag : Tag}
    (h : input.elementTag id tags = .ok tag) : Tag.unify tags = some tag ∨ tag = .builtin .any := by
  simp only [WalkInput.elementTag] at h
  split at h
  · rename_i unified hunify
    exact Or.inl (Except.ok.inj h ▸ hunify)
  · split at h
    · exact Or.inr (Except.ok.inj h).symm
    · simp at h

namespace Located

variable (h : Located input shapes rank m)
include h

/-- The tag of a value in the tables is listed. -/
theorem tag_mem (hholds : m.Holds input.tree input.registry value) :
    ∃ tag, Tag.of input.tree input.registry value = .ok tag ∧ tag ∈ tagsOf shapes := by
  cases value with
  | null => exact ⟨_, rfl, mem_tagsOf_builtin _⟩
  | boolean b => cases b <;> exact ⟨_, rfl, mem_tagsOf_builtin _⟩
  | number d =>
      refine ⟨_, rfl, ?_⟩
      rw [Tag.ofNumber]
      split <;> exact mem_tagsOf_builtin _
  | string s => exact ⟨_, rfl, mem_tagsOf_builtin _⟩
  | array id => exact ⟨_, rfl, mem_tagsOf_builtin _⟩
  | object id =>
      obtain ⟨shape, hshape, hobject⟩ := hholds
      exact ⟨_, Tag.of_object_eq_ok.mpr ⟨shape, hshape, rfl⟩,
        mem_tagsOf_shape.mpr (h.filled.mem_shapes shape id hshape hobject)⟩

theorem fits_root : FitsSlot input m (.tagged .any) m.root := by
  have hroot := h.root
  obtain ⟨tag, htag, -⟩ := h.tag_mem hroot
  rw [h.root_eq]
  refine ⟨hroot, ⟨tag, htag, rfl⟩, by simp, fun id hid => ?_, by simp⟩
  exact absurd hid List.not_mem_nil

/-- The value of every declared field fits into its slot. -/
theorem fits_field (hr : input.registry.Valid) (hid : m.HasNode input.tree input.registry id)
    {object : Object} (hobject : input.tree.object? id = some object)
    (hshape : input.registry.lookup object.shape = some shape) {field : Field}
    (hfield : field ∈ input.registry.fields shape) :
    FitsSlot input m (Codec.ofDecl field.type input.config.partitionedTables)
      (object.get field.name) := by
  have hcomplete := h.complete id hid
  obtain ⟨-, hchecks⟩ := hcomplete.object object shape hobject hshape
  obtain ⟨tag, htag, h₁⟩ := bind_eq_ok.mp (hchecks field hfield)
  obtain ⟨_, hcheck, -⟩ := bind_eq_ok.mp h₁
  -- The walk has checked the value against the declared type, or it would have failed.
  have haccepts : field.type.accepts tag = true := by
    by_contra hnot
    simp [WalkInput.checkTag, hnot] at hcheck
  refine ⟨hcomplete.slots _ ?_, ⟨tag, htag, by rw [Codec.accepts_ofDecl, haccepts]⟩,
    fun fixedTag hfixed => Codec.nullable_ofDecl hfixed, fun named hnamed => ?_,
    fun nullable hfixed => Codec.shared_ofDecl hfixed⟩
  · rw [Tree.slots_of_object hobject hshape]
    exact List.mem_map_of_mem hfield
  · exact hr.declared_lt hfield (Codec.shapeIds_ofDecl hnamed)

/-- The elements of an array have a tag that is listed, and fit into its slots. -/
theorem fits_elements (hid : m.HasNode input.tree input.registry id) {elements : List Value}
    (helements : input.tree.array? id = some elements) :
    ∃ tag, m.elementTag? id = some tag ∧ tag ∈ tagsOf shapes ∧ ∀ value ∈ elements,
      FitsSlot input m (Codec.ofElement tag input.config.partitionedTables) value := by
  have hcomplete := h.complete id hid
  obtain ⟨tags, tag, htags, htag, hget⟩ := hcomplete.array elements helements
  have hholds : ∀ value ∈ elements, m.Holds input.tree input.registry value := fun value hvalue =>
    hcomplete.slots value (by rwa [Tree.slots_of_array helements])
  have hof : ∀ t ∈ tags, t.isTerminal = true ∧ t ∈ tagsOf shapes := by
    intro t ht
    obtain ⟨value, hvalue, hof⟩ := exists_left_of_forall₂ htags ht
    obtain ⟨u, hu, hmem⟩ := h.tag_mem (hholds value hvalue)
    obtain rfl : t = u := Except.ok.inj (hof.symm.trans hu)
    exact ⟨Tag.isTerminal_of_of hof, hmem⟩
  have hunify := WalkInput.elementTag_eq_ok htag
  have hlisted : tag ∈ tagsOf shapes := by
    cases tag with
    | builtin b => exact mem_tagsOf_builtin b
    | shape own =>
        rcases hunify with hunify | hany
        · exact (hof _ (Codec.mem_of_unify_eq_shape hunify)).2
        · simp at hany
  refine ⟨tag, hget, hlisted, fun value hvalue => ?_⟩
  obtain ⟨t, ht, hof'⟩ := exists_right_of_forall₂ htags hvalue
  refine ⟨hholds value hvalue, ⟨t, hof', ?_⟩, fun fixedTag hfixed => Codec.nullable_ofElement hfixed,
    fun named hnamed => ?_, fun nullable hfixed => Codec.shared_ofElement hfixed⟩
  · rcases hunify with hunify | rfl
    · exact Codec.accepts_ofElement _ hunify (fun u hu => (hof u hu).1) ht
    · rfl
  · obtain rfl := Codec.shapeIds_ofElement hnamed
    exact h.tags.registered named (mem_tagsOf_shape.mp hlisted)

end Located

/-! ### Writing an object slot -/

/-- What writes a finalized module. -/
abbrev WalkInput.writer (input : WalkInput) (m : Module) : WriteInput :=
  ⟨input.tree, input.registry, m, input.config.wire⟩

/-- The three ways in which a slot refers to an object. -/
theorem objectSlot_cases {t : UniqueTable NodeId} {entry : Handle} {survivor : NodeId}
    (hshape : input.tree.shape? input.registry id = some shape)
    (hfound : FoundObject input rank m shape id t entry survivor) {expected : Option ShapeId}
    (hexpected : expected.all (· = shape) = true)
    (writeFields : ShapeId → NodeId → Except Error (List Token)) (site : Site) :
    (input.config.inlineObjects = true ∧ ∃ index, t.keys[index]? = some survivor ∧
      (input.writer m).objectSlot writeFields expected site id = do
        let marker ← (input.writer m).tagToken (.builtin .object)
        let bytes ← (input.config.indexEncoding.writeIndex t.label index).mapError .encode
        .ok [marker, (input.writer m).token (WriteInput.slotTag expected) bytes]) ∨
    (input.config.inlineObjects = true ∧ survivor ∉ t.keys ∧
      (input.writer m).objectSlot writeFields expected site id = do
        let marker ← (input.writer m).tagToken (.shape shape)
        .ok (marker :: (← writeFields shape survivor))) ∨
    (input.config.inlineObjects = false ∧ ∃ index, t.keys[index]? = some survivor ∧
      (input.writer m).objectSlot writeFields expected site id = do
        .ok [← (input.writer m).referenceToken (WriteInput.slotTag expected) t.label
          (some index)]) := by
  have hany : expected.any (· ≠ shape) = false := by
    cases expected with
    | none => rfl
    | some other => simpa using hexpected
  cases hplace : input.config.inlineObjects with
  | true =>
      cases hindex : (t.entry? entry).bind (·.index) with
      | some index =>
          refine Or.inl ⟨rfl, index, hfound.getElem?_keys index hindex, ?_⟩
          simp only [WriteInput.objectSlot, Tree.shapeOf_eq_ok.mpr hshape, ok_bind, hany,
            hfound.table, hfound.require, EncodingConfig.wire, hplace, hindex, Except.mapError]
          rfl
      | none =>
          refine Or.inr (Or.inl ⟨rfl, hfound.notMem_keys hindex, ?_⟩)
          simp only [WriteInput.objectSlot, Tree.shapeOf_eq_ok.mpr hshape, ok_bind, hany,
            hfound.table, hfound.require, hfound.value, EncodingConfig.wire, hplace, hindex,
            Except.mapError]
          rfl
  | false =>
      obtain ⟨index, hindex⟩ := hfound.indexed hplace
      refine Or.inr (Or.inr ⟨rfl, index, hfound.getElem?_keys index hindex, ?_⟩)
      simp only [WriteInput.objectSlot, Tree.shapeOf_eq_ok.mpr hshape, ok_bind, hany, hfound.table,
        hfound.require, EncodingConfig.wire, hplace, hindex, Except.mapError]
      rfl

end Module

end SyntaxPack
