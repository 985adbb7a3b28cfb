import SyntaxPack.Proofs.Encode.Mirror
import SyntaxPack.Proofs.Exchange.Walked
/-!
# SyntaxPack.Proofs.Exchange.Encoded

A tree written under another registry.

The modules of a tree under two registries have the same content, and a tag is written as
an index, which depends on the name of its shape alone. What is left to see is that a
field leads to the same slots on both sides: its declared types differ in positions only,
also where they name a shape that has no tag and no table.

`Follows` goes one way: what the first registry writes the second one writes, too. Sites only go into
errors, of which nothing is said, so the two sides may disagree about them.
-/

namespace SyntaxPack

namespace Module

open WriteInput (slotTag)

/-- A finalized module, and the one of the same tree under another registry. -/
structure Rewritten (input : WalkInput) (registry' : Registry) (shapes : List ShapeId)
    (rank : NodeId → Nat) (m m' : Module) : Prop where
  located : Located input shapes rank m
  shared : input.tree.Shared input.registry registry'
  same : m.Same (input.registry.Corresponds registry') m'

namespace Rewritten

variable {input : WalkInput} {registry' : Registry} {shapes : List ShapeId} {rank : NodeId → Nat}
  {m m' : Module} {id : NodeId} {shape shape' : ShapeId} {value : Value} {tag tag' : Tag}
  {expected expected' : Option ShapeId} (h : Rewritten input registry' shapes rank m m')
include h

theorem biUnique : Relator.BiUnique (input.registry.Corresponds registry') := h.shared.biUnique

/-- The shape of an object in the tables is found under the other registry, and is declared alike.
-/
theorem exists_shape (hid : m.HasNode input.tree input.registry id)
    (hshape : input.tree.shape? input.registry id = some shape) :
    ∃ shape', input.tree.shape? registry' id = some shape' ∧
      input.registry.Corresponds registry' shape shape' ∧
      SameFields (input.registry.Corresponds registry') (input.registry.fields shape)
        (registry'.fields shape') := by
  obtain ⟨shape', hshape', hsame⟩ :=
    h.shared.treeShapeOf (h.located.reachable id hid) shape (Tree.shapeOf_eq_ok.mpr hshape)
  exact ⟨shape', Tree.shapeOf_eq_ok.mp hshape', hsame⟩

/-! ### Tokens

A token carries bytes and the index of a tag. The index is the same on both sides, as that of the
name of the tag, so tokens of related tags are equal. -/

theorem tagIndex_eq (htag : tag.Same (input.registry.Corresponds registry') tag') :
    m.tagIndex input.registry tag = m'.tagIndex registry' tag' :=
  h.same.tagIndex_eq h.biUnique (fun _ _ hid => hid.2.2) htag

theorem token_eq (htag : tag.Same (input.registry.Corresponds registry') tag') (bytes : List UInt8) :
    (input.writer m).token tag bytes = ((input.under registry').writer m').token tag' bytes := by
  have hstream := htag.streamIndex_eq fun _ _ hid =>
    congrArg Except.toOption (h.tagIndex_eq (.shape hid))
  simp only [WriteInput.token, hstream]

theorem tagToken_eq (htag : tag.Same (input.registry.Corresponds registry') tag') :
    (input.writer m).tagToken tag = ((input.under registry').writer m').tagToken tag' := by
  simp only [WriteInput.tagToken, h.tagIndex_eq htag, h.token_eq (.builtin .any)]

theorem referenceToken_eq (htag : tag.Same (input.registry.Corresponds registry') tag')
    (label : String) (index : Option Nat) :
    (input.writer m).referenceToken tag label index =
      ((input.under registry').writer m').referenceToken tag' label index := by
  simp only [WriteInput.referenceToken, h.token_eq htag]

omit h in
theorem same_slotTag (he : Option.Rel (input.registry.Corresponds registry') expected expected') :
    (slotTag expected).Same (input.registry.Corresponds registry') (slotTag expected') := by
  cases he with
  | none => exact .builtin .object
  | some hid => exact .shape hid

theorem tableLabel_eq (he : Option.Rel (input.registry.Corresponds registry') expected expected') :
    (input.writer m).tableLabel expected =
      ((input.under registry').writer m').tableLabel expected' := by
  cases he with
  | none => rfl
  | some hid =>
      simp only [WriteInput.tableLabel, Option.bind_some, h.same.objects.table?_eq h.biUnique hid]

/-! ### Slots

The cases are those of the writer. That a value fits its slot excludes what only one side could
write. -/

theorem nullObjectSlot_eq
    (he : Option.Rel (input.registry.Corresponds registry') expected expected') :
    (input.writer m).nullObjectSlot expected =
      ((input.under registry').writer m').nullObjectSlot expected' := by
  simp only [WriteInput.nullObjectSlot, h.tagToken_eq (.builtin .null), h.tableLabel_eq he,
    h.referenceToken_eq (same_slotTag he)]

variable {write write' : ShapeId → NodeId → Except Error (List Token)}

/-- Programs that write the fields of every object in the tables alike. -/
def FieldsAlike (input : WalkInput) (registry' : Registry) (m : Module)
    (write write' : ShapeId → NodeId → Except Error (List Token)) : Prop :=
  ∀ id shape shape', m.HasNode input.tree input.registry id →
    input.tree.shape? input.registry id = some shape →
    input.registry.Corresponds registry' shape shape' → Follows (write shape id) (write' shape' id)

/-- An object slot refers to the same entry on both sides, or holds the same fields. -/
theorem follows_objectSlot (hid : m.HasNode input.tree input.registry id)
    (hshape : input.tree.shape? input.registry id = some shape)
    (he : Option.Rel (input.registry.Corresponds registry') expected expected') (site site' : Site)
    (hwrite : FieldsAlike input registry' m write write') :
    Follows ((input.writer m).objectSlot write expected site id)
      (((input.under registry').writer m').objectSlot write' expected' site' id) := by
  obtain ⟨shape', hshape', hrel, -⟩ := h.exists_shape hid hshape
  -- The entry is looked up once: the other module has the very same table.
  obtain ⟨t, entry, survivor, hfound⟩ := h.located.object hshape ((hasNode_object_iff hshape).mp hid)
  have htable : m'.objects.table? shape' = some t :=
    (h.same.objects.table?_eq h.biUnique hrel).symm.trans hfound.table
  have hany : expected.any (· ≠ shape) = expected'.any (· ≠ shape') := by
    cases he with
    | none => rfl
    | some he => simp [Relator.rel_eq h.biUnique he hrel]
  simp only [WriteInput.objectSlot, Tree.shapeOf_eq_ok.mpr hshape, Tree.shapeOf_eq_ok.mpr hshape',
    ok_bind, hany, hfound.table, htable, hfound.require, hfound.value, Except.mapError,
    Option.getD_some, h.tagToken_eq (.builtin .object), h.tagToken_eq (.shape hrel),
    h.token_eq (same_slotTag he), h.referenceToken_eq (same_slotTag he)]
  split
  · exact .error
  · split
    · split
      · exact .refl _
      · exact .bind (.refl _) fun _ _ =>
          .bind (hwrite survivor shape shape' hfound.hasNode hfound.shape_eq hrel) fun _ _ => .refl _
    · split
      · exact .refl _
      · exact .error

/-- A value is written alike under every tag that it is stored under. -/
theorem follows_underTag {nullable : Bool}
    (hstored : Tag.Stored input.tree input.registry tag nullable value)
    (hholds : m.Holds input.tree input.registry value)
    (htag : tag.Same (input.registry.Corresponds registry') tag') (site site' : Site)
    (hwrite : FieldsAlike input registry' m write write') :
    Follows ((input.writer m).underTag write tag nullable site value)
      (((input.under registry').writer m').underTag write' tag' nullable site' value) := by
  cases hstored with
  | null | trueValue | falseValue =>
      cases htag
      exact .refl _
  | integer _ hpayload =>
      cases htag
      simp only [WriteInput.underTag, hpayload, h.token_eq (.builtin .integer)]
      exact .refl _
  | double =>
      cases htag
      simp only [WriteInput.underTag, h.token_eq (.builtin .double)]
      exact .refl _
  | string =>
      cases htag
      simp only [WriteInput.underTag, h.same.strings, h.referenceToken_eq (.builtin .string)]
      exact .refl _
  | array =>
      cases htag
      simp only [WriteInput.underTag, h.same.arrays, h.referenceToken_eq (.builtin .array)]
      exact .refl _
  | object _ hshape =>
      cases htag
      exact h.follows_objectSlot (hholds.hasNode rfl) hshape .none _ _ hwrite
  | shape _ hshape =>
      cases htag with
      | shape hrel =>
          exact h.follows_objectSlot (hholds.hasNode rfl) hshape (.some hrel) _ _ hwrite
  | absent hreference =>
      -- Only here may the tag be that of a shape without an object in the module.
      cases htag with
      | shape hrel =>
          simp only [WriteInput.underTag, h.nullObjectSlot_eq (.some hrel)]
          exact .refl _
      | builtin b =>
          cases b with
          | string =>
              simp only [WriteInput.underTag, h.referenceToken_eq (.builtin .string)]
              exact .refl _
          | array =>
              simp only [WriteInput.underTag, h.referenceToken_eq (.builtin .array)]
              exact .refl _
          | object =>
              simp only [WriteInput.underTag, h.nullObjectSlot_eq .none]
              exact .refl _
          | _ => simp [Tag.isReference] at hreference

/-- A value is written alike wherever it fits. -/
theorem follows_slot {codec codec' : Codec} (hfits : FitsSlot input m codec value)
    (hcodec : codec.Same (input.registry.Corresponds registry') codec') (site site' : Site)
    (hwrite : FieldsAlike input registry' m write write') :
    Follows ((input.writer m).slot write codec site value)
      (((input.under registry').writer m').slot write' codec' site' value) := by
  cases hcodec with
  | fixed htag nullable =>
      exact h.follows_underTag hfits.stored hfits.holds htag _ _ hwrite
  | @tagged decl decl' hdecl =>
      obtain ⟨tag, htag, -⟩ := hfits.tag
      have hleads : input.tree.Leads value := fun id hid =>
        h.located.reachable id (hfits.holds.hasNode hid)
      -- The tag of the value itself is stored, so both sides store related ones.
      obtain ⟨tag', htag', hsame⟩ := h.shared.tagOf hleads tag htag
      have hstored : Tag.Stored input.tree input.registry tag false value :=
        Tag.stored_of_holds htag (Tag.holds_self (Tag.isTerminal_of_of htag))
      simp only [WriteInput.slot, htag, htag', ok_bind, hdecl.accepts_eq h.biUnique hsame,
        h.tagToken_eq hsame]
      split
      · exact .error
      · exact .bind (.refl _) fun _ _ => .bind
          (h.follows_underTag hstored hfits.holds hsame _ _ hwrite) fun _ _ => .refl _

/-! ### Fields

The fields of an object are its slots one after another, and nested objects are handled by induction
on the depth that is left. -/

/-- Fields are written alike if the fields of the objects in their slots are. -/
theorem follows_fieldSlots (hwrite : FieldsAlike input registry' m write write') :
    FieldsAlike input registry' m ((input.writer m).fieldSlots write)
      (((input.under registry').writer m').fieldSlots write') := by
  intro id shape shape' hid hshape hrel
  -- The positions that correspond are those at which the fields are declared alike.
  obtain ⟨named, -, hnamed, hfields⟩ := h.exists_shape hid hshape
  obtain rfl : named = shape' := h.biUnique.2 hnamed hrel
  obtain ⟨object, hobject, hlookup⟩ := Tree.shape?_eq_some_iff.mp hshape
  simp only [WriteInput.fieldSlots, Tree.requireObject_eq_ok.mpr hobject, ok_bind]
  refine .bind (.mapM ?_) fun _ _ => .refl _
  have hall := (List.forall₂_and_left _ _).mpr ⟨fun _ hfield => hfield, hfields⟩
  refine hall.imp fun field field' hfield => ?_
  obtain ⟨hmem, hname, htype⟩ := hfield
  have hfits := h.located.fits_field h.shared.valid hid hobject hlookup hmem
  rw [← hname]
  exact h.follows_slot hfits (.ofDecl htype _) _ _ hwrite

/-- The depth is the same on both sides, as it depends on the tree alone. -/
theorem follows_fieldsWithin (depth : Nat) :
    FieldsAlike input registry' m ((input.writer m).fieldsWithin depth)
      (((input.under registry').writer m').fieldsWithin depth) := by
  induction depth with
  | zero =>
      intro id shape shape' _ _ _
      exact .error
  | succ depth ih => exact h.follows_fieldSlots ih

theorem follows_objectFields :
    FieldsAlike input registry' m (input.writer m).objectFields
      ((input.under registry').writer m').objectFields :=
  h.follows_fieldsWithin _

/-! ### Sections

Tables, arrays and the root, each from the lemma for its slots. -/

theorem follows_objectSection {table : ObjectTable} (htable : table ∈ m.objects.tables) :
    Follows ((input.writer m).objectSection table.table)
      (((input.under registry').writer m').objectSection table.table) := by
  obtain ⟨shape, ht, -⟩ := h.located.filled.wellShaped.exists_table? htable
  obtain ⟨order, horder, -, hkeys⟩ := (h.located.objects shape _ ht).exists_indexed
  simp only [WriteInput.objectSection, horder, Except.mapError, ok_bind, hkeys]
  refine .bind (.refl _) fun _ _ => .bind (.mapM ?_) fun _ _ => .refl _
  refine List.forall₂_same.mpr fun id hid => ?_
  obtain ⟨own, hown, -, hobject⟩ := h.located.object_of_mem_keys ht hid
  have hnode := (hasNode_object_iff hown).mpr hobject
  obtain ⟨own', hown', hrel, -⟩ := h.exists_shape hnode hown
  simp only [Tree.shapeOf_eq_ok.mpr hown, Tree.shapeOf_eq_ok.mpr hown', ok_bind,
    h.tagToken_eq (.shape hrel)]
  exact .bind (.refl _) fun _ _ => .bind (h.follows_objectFields id own own' hnode hown hrel)
    fun _ _ => .refl _

theorem follows_arrayEntry (hid : m.HasNode input.tree input.registry id)
    (harray : (input.tree.array? id).isSome = true) :
    Follows ((input.writer m).arrayEntry id) (((input.under registry').writer m').arrayEntry id) := by
  obtain ⟨elements, helements⟩ := Option.isSome_iff_exists.mp harray
  obtain ⟨tag, hget, -, hfits⟩ := h.located.fits_elements hid helements
  obtain ⟨tag', hget', htag⟩ := exists_of_rel_some (h.same.elementTag? id) hget
  simp only [WriteInput.arrayEntry, Tree.requireArray_eq_ok.mpr helements, ok_bind, hget, hget',
    h.tagToken_eq htag]
  split
  · exact .refl _
  · refine .bind (.refl _) fun _ _ => .bind (.mapM ?_) fun _ _ => .refl _
    exact List.forall₂_same.mpr fun value hvalue =>
      h.follows_slot (hfits value hvalue) (.ofElement htag _) _ _ h.follows_objectFields

theorem follows_arraySection :
    Follows (input.writer m).arraySection ((input.under registry').writer m').arraySection := by
  obtain ⟨order, horder, -, hkeys⟩ := h.located.arrays.exists_indexed
  simp only [WriteInput.arraySection, ← h.same.arrays, horder, Except.mapError, ok_bind, hkeys]
  refine .bind (.refl _) fun _ _ => .bind (.mapM ?_) fun _ _ => .refl _
  refine List.forall₂_same.mpr fun id hid => ?_
  obtain ⟨harray, hnode⟩ := h.located.array_of_mem_keys hid
  exact h.follows_arrayEntry hnode harray

theorem follows_rootSection :
    Follows (input.writer m).rootSection ((input.under registry').writer m').rootSection := by
  simp only [WriteInput.rootSection, ← h.same.root]
  exact h.follows_slot h.located.fits_root (.tagged .any) _ _ h.follows_objectFields

theorem tagSection_eq :
    (input.writer m).tagSection = ((input.under registry').writer m').tagSection := by
  have hentries : ∀ order : List Handle,
      List.Forall₂ (Entry.Same (Tag.Same (input.registry.Corresponds registry')))
        (order.filterMap m.tags.entry?) (order.filterMap m'.tags.entry?) := by
    intro order
    refine List.rel_filterMap (fun handle handle' hhandle => ?_)
      (List.forall₂_same.mpr fun handle _ => rfl)
    exact hhandle ▸ h.same.tags.entry? handle
  have hnames : ∀ order : List Handle, (order.filterMap m.tags.entry?).map (·.name) =
      (order.filterMap m'.tags.entry?).map (·.name) := fun order =>
    map_eq_of_forall₂ (hentries order) fun _ _ he => he.name
  simp only [WriteInput.tagSection, h.same.tags.indexed_eq, hnames]

theorem stringSection_eq :
    (input.writer m).stringSection = ((input.under registry').writer m').stringSection := by
  simp only [WriteInput.stringSection, h.same.strings]

/-! ### The module

The directory counts entries and lists tag indices; with it the parts are complete, and `bytes` puts
the same ones together on both sides. -/

theorem directoryTable_eq {table table' : ObjectTable}
    (ht : table.Same (input.registry.Corresponds registry') table') :
    (input.writer m).directoryTable table =
      ((input.under registry').writer m').directoryTable table' := by
  simp only [WriteInput.directoryTable, h.tagIndex_eq (same_slotTag ht.shape), ht.table]

theorem follows_directoryObjects :
    Follows (input.writer m).directoryObjects
      ((input.under registry').writer m').directoryObjects := by
  have htables := h.same.objects.tables
  simp only [WriteInput.directoryObjects, htables.length_eq]
  split
  · refine .bind (.refl _) fun _ _ => .bind (.mapM (htables.imp fun table table' ht => ?_))
      fun _ _ => .refl _
    rw [h.directoryTable_eq ht]
    exact .refl _
  · generalize m.objects.tables = tables at htables ⊢
    generalize m'.objects.tables = tables' at htables ⊢
    cases htables with
    | nil => exact .refl _
    | cons ht _ =>
        simp only [ht.table]
        exact .refl _

theorem follows_directory :
    Follows (input.writer m).directory ((input.under registry').writer m').directory := by
  simp only [WriteInput.directory, h.same.tags.size_eq, h.same.strings, h.same.arrays]
  exact .bind (.refl _) fun _ _ => .bind (.refl _) fun _ _ => .bind (.refl _) fun _ _ =>
    .bind h.follows_directoryObjects fun _ _ => .refl _

/-- What the one module is written as, the other one is written as, too. -/
theorem follows_bytes :
    Follows (input.writer m).bytes ((input.under registry').writer m').bytes := by
  have htables : m.objects.tables.map (·.table) = m'.objects.tables.map (·.table) :=
    map_eq_of_forall₂ h.same.objects.tables fun _ _ ht => ht.table
  have hobjects : List.Forall₂ (fun table table' : UniqueTable NodeId =>
      Follows ((input.writer m).objectSection table)
        (((input.under registry').writer m').objectSection table'))
      (m.objects.tables.map (·.table)) (m.objects.tables.map (·.table)) := by
    refine List.forall₂_same.mpr fun table htable => ?_
    obtain ⟨entry, hentry, rfl⟩ := List.mem_map.mp htable
    exact h.follows_objectSection hentry
  unfold WriteInput.bytes
  simp only [← htables, h.tagSection_eq, h.stringSection_eq]
  exact .bind h.follows_directory fun _ _ => .bind (.refl _) fun _ _ => .bind (.refl _) fun _ _ =>
    .bind (.refl _) fun _ _ => .bind (.refl _) fun _ _ => .bind (.mapM hobjects) fun _ _ =>
    .bind h.follows_arraySection fun _ _ => .bind h.follows_rootSection fun _ _ => .refl _

end Rewritten

end Module

/-- A tree is written alike under registries that share the shapes of its objects. -/
theorem Tree.Shared.follows_encode {tree : Tree} {registry registry' : Registry}
    (h : tree.Shared registry registry') (config : EncodingConfig) :
    Follows (encode tree registry config) (encode tree registry' config) := by
  intro bytes hencode
  obtain ⟨m, hbuild, hbytes⟩ := bind_eq_ok.mp hencode
  obtain ⟨m', hbuild', hsame⟩ := Module.ensues_build h config m hbuild
  obtain ⟨shapes, rank, hlocated, -⟩ := Module.located_of_build h.valid hbuild
  have hrewritten : Module.Rewritten ⟨tree, registry, config⟩ registry' shapes rank m m' :=
    ⟨hlocated, h, hsame⟩
  exact bind_eq_ok.mpr ⟨m', hbuild', hrewritten.follows_bytes bytes hbytes⟩

end SyntaxPack
