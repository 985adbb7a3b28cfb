import SyntaxPack.Proofs.Exchange.Parallel
/-!
# SyntaxPack.Proofs.Exchange.Slots

The content of every section, decoded side by side.

`Alike` relates what two decodings know once their tables are set up: equal tables,
with tags and shapes at positions that correspond, and shapes that are declared alike
wherever a tag names them. Everything that is read from then on is the same on both
sides. A shape that no tag names can still be declared for a field; of such a shape
nothing but its position matters, which leads to no tag and to no table.

The lemmas follow the recursion of the decoder, one for every kind of slot. Each says that one step
is `Parallel` to another: from states that are side by side, a run of the first that succeeds is
matched by a run of the second, the results are related, and the states are side by side again.
Nothing is said of a run that fails, so offsets need not be compared: they only show up in errors.
-/

namespace SyntaxPack

/-- The first position of what is looked for is the same in lists that are related. -/
theorem findIdx?_eq_of_forall₂ {α β : Type} {r : α → β → Prop} {p : α → Bool} {q : β → Bool}
    {xs : List α} {ys : List β} (h : List.Forall₂ r xs ys) (hpq : ∀ x y, r x y → p x = q y) :
    xs.findIdx? p = ys.findIdx? q := by
  induction h with
  | nil => rfl
  | cons hxy _ ih => rw [List.findIdx?_cons, List.findIdx?_cons, hpq _ _ hxy, ih]

/-- What is found first in one list is related to what is found first in the other. -/
theorem find?_of_forall₂ {α β : Type} {r : α → β → Prop} {p : α → Bool} {q : β → Bool}
    {xs : List α} {ys : List β} (h : List.Forall₂ r xs ys) (hpq : ∀ x y, r x y → p x = q y) :
    Option.Rel r (xs.find? p) (ys.find? q) := by
  induction h with
  | nil => exact .none
  | cons hxy _ ih =>
      rw [List.find?_cons, List.find?_cons, hpq _ _ hxy]
      split
      · exact .some hxy
      · exact ih

/-- What two lists that are related have at a position is related. -/
theorem getElem?_rel_of_forall₂ {α β : Type} {r : α → β → Prop} {xs : List α} {ys : List β}
    (h : List.Forall₂ r xs ys) (i : Nat) : Option.Rel r xs[i]? ys[i]? := by
  induction h generalizing i with
  | nil => exact .none
  | cons hxy _ ih =>
      cases i with
      | zero => exact .some hxy
      | succ i => exact ih i

namespace Module

/-- Object tables of the same place and label whose shapes correspond. -/
structure ObjectSlots.Same (rel : ShapeId → ShapeId → Prop) (slots slots' : ObjectSlots) : Prop where
  label : slots.label = slots'.label
  shape : Option.Rel rel slots.shape slots'.shape
  first : slots.first = slots'.first
  count : slots.count = slots'.count

namespace DecodeInput

/-- What is known on both sides is the same, up to positions of shapes. -/
structure Alike (rel : ShapeId → ShapeId → Prop) (input input' : DecodeInput) : Prop where
  wire : input.wire = input'.wire
  tags : List.Forall₂ (Tag.Same rel) input.tags.toList input'.tags.toList
  strings : input.strings = input'.strings
  tables : List.Forall₂ (ObjectSlots.Same rel) input.tables input'.tables
  firstArray : input.firstArray = input'.firstArray
  arrayCount : input.arrayCount = input'.arrayCount
  size : input.size ≤ input'.size
  biUnique : Relator.BiUnique rel
  names : ∀ id id', rel id id' → input.registry.shapeName id = input'.registry.shapeName id'
  fields : ∀ id id', rel id id' → .shape id ∈ input.tags →
    SameFields rel (input.registry.fields id) (input'.registry.fields id')

variable {p : Pairing} {input input' : DecodeInput} {readFields readFields' : ShapeId → Decode Object}

/-! ### Tags and tables

What a tag is looked up as is the same on both sides. For a tag in the module this is because its
shape has one name in both registries; for a declared type that no tag names, because no table and
no tag index is found on either side. -/

section

variable {rel : ShapeId → ShapeId → Prop} (h : Alike rel input input')
include h

theorem Alike.shapeTag_eq {id id' : ShapeId} (hid : rel id id') :
    input.shapeTag id = input'.shapeTag id' := by
  have hfind := findIdx?_eq_of_forall₂ (p := (· = .shape id)) (q := (· = .shape id'))
    (List.rel_reverse h.tags) fun t t' ht => by
      simp only [ht.eq_iff h.biUnique (.shape hid)]
  have hsize : input.tags.size = input'.tags.size := h.tags.length_eq
  simp only [shapeTag, hfind, hsize]

theorem Alike.streamIndex_eq {tag tag' : Tag} (ht : tag.Same rel tag') :
    tag.streamIndex input.shapeTag = tag'.streamIndex input'.shapeTag :=
  ht.streamIndex_eq fun _ _ hid => h.shapeTag_eq hid

theorem Alike.tableFor {expected expected' : Option ShapeId} (he : Option.Rel rel expected expected') :
    Option.Rel (ObjectSlots.Same rel) (input.tableFor expected) (input'.tableFor expected') := by
  have hhead : Option.Rel (ObjectSlots.Same rel) input.tables.head? input'.tables.head? := by
    rw [List.head?_eq_getElem?, List.head?_eq_getElem?]
    exact getElem?_rel_of_forall₂ h.tables 0
  cases he with
  | none => exact hhead
  | @some id id' hid =>
      simp only [DecodeInput.tableFor, h.wire]
      split
      · refine find?_of_forall₂ (List.rel_reverse h.tables) fun slots slots' hslots => ?_
        have hshape := hslots.shape
        cases hs : slots.shape <;> cases hs' : slots'.shape <;>
          simp only [hs, hs', Option.rel_some_some, Option.not_rel_some_none,
            Option.not_rel_none_some] at hshape
        · rfl
        · simpa using Relator.rel_eq h.biUnique hshape hid
      · exact hhead

theorem Alike.slotsFor {expected expected' : Option ShapeId} (he : Option.Rel rel expected expected') :
    (input.slotsFor expected).Same rel (input'.slotsFor expected') := by
  have htable := h.tableFor he
  simp only [DecodeInput.slotsFor]
  generalize input.tableFor expected = table at htable ⊢
  generalize input'.tableFor expected' = table' at htable ⊢
  cases htable with
  | none => exact ⟨rfl, .none, rfl, rfl⟩
  | some hslots => exact hslots

theorem Alike.pendingRefs {expected expected' : Option ShapeId}
    (he : Option.Rel rel expected expected') (node : NodeId) (index : Nat) :
    List.Forall₂ (ShapeRef.Same rel) (input.pendingRefs expected node index)
      (input'.pendingRefs expected' node index) := by
  cases he with
  | none => exact .nil
  | some hid =>
      simp only [DecodeInput.pendingRefs, h.wire]
      split
      · exact .nil
      · exact .cons ⟨rfl, hid, rfl⟩ .nil

end

variable (h : Alike p.rel input input')
include h

/-! ### Tokens

A token is read from the stream of its tag, which has the same number on both sides, or from the
section itself. -/

/-- What is read for a tag is read from the same stream on both sides, as related tags have one
index. -/
theorem parallel_fromTag {α : Type} {same : α → α → Prop} {read : Read α}
    (hread : read.Steady same) {tag tag' : Tag} (ht : tag.Same p.rel tag') :
    p.Parallel same (input.fromTag tag read) (input'.fromTag tag' read) := by
  simp only [fromTag, h.streamIndex_eq ht]
  exact Pairing.parallel_fromStream hread _

/-- A tag is written as its index, and tags at one index are related. It is also one of the tags of
the module, which is what the declarations of its shape are compared for. -/
theorem parallel_readTag : p.Parallel (fun tag tag' => tag.Same p.rel tag' ∧ tag ∈ input.tags)
    input.readTag input'.readTag := by
  simp only [readTag, h.wire]
  refine (parallel_fromTag h (input'.wire.indexEncoding.local_readIndex).located
    (.builtin .any)).bind fun x x' hindex => ?_
  obtain ⟨offset, index⟩ := x
  obtain ⟨offset', index'⟩ := x'
  obtain rfl : index = index' := hindex
  have htags := getElem?_rel_of_forall₂ h.tags index
  simp only [Array.getElem?_toList] at htags
  refine Pairing.parallel_require ?_
  cases hfound : input.tags[index]? <;> cases hfound' : input'.tags[index]? <;>
    simp only [hfound, hfound', Option.rel_some_some, Option.not_rel_some_none,
      Option.not_rel_none_some] at htags
  · exact .none
  · exact .some ⟨htags, Array.mem_of_getElem? hfound⟩

omit h in
theorem parallel_nullOr (nullable : Bool) (offset offset' : Nat) (expected expected' : String) :
    p.Parallel Eq (nullOr nullable offset expected) (nullOr nullable offset' expected') := by
  cases nullable with
  | true => exact Pairing.parallel_pure rfl
  | false => exact Pairing.parallel_fail

/-! ### Slots

The recursion through slots is closed at the end of the section: `hfields` assumes that the fields
of related shapes are read in parallel, and `parallel_fieldsWithin` discharges it by induction on
the number of objects that are still open. -/

/-- A reference leads to the same node. -/
theorem parallel_objectRef {expected expected' : Option ShapeId}
    (he : Option.Rel p.rel expected expected') (index offset offset' : Nat) :
    p.Parallel Eq (input.objectRef expected index offset)
      (input'.objectRef expected' index offset') := by
  intro s s' t value hs hrun
  obtain ⟨hlt, rfl, rfl⟩ := objectRef_eq_ok.mp hrun
  have hslots := h.slotsFor he
  refine ⟨_, _, objectRef_eq_ok.mpr ⟨hslots.count ▸ hlt, rfl, rfl⟩, by rw [hslots.first], ?_⟩
  refine ⟨⟨hs.streams, hs.present, hs.nodes, ?_⟩, hs.input, hs.input', hs.body⟩
  rw [hslots.first]
  exact List.rel_append (h.pendingRefs he _ index) hs.shapeRefs

omit h in
theorem same_slotTag {rel : ShapeId → ShapeId → Prop} {expected expected' : Option ShapeId}
    (he : Option.Rel rel expected expected') :
    (slotTag expected).Same rel (slotTag expected') := by
  cases he with
  | none => exact .builtin .object
  | some hid => exact .shape hid

variable (hfields : ∀ id id', p.rel id id' → .shape id ∈ input.tags →
  p.Parallel Eq (readFields id) (readFields' id'))
include hfields

/-- An object in its slot is the fields of a shape behind the tag of that shape, a reference behind
the marker, or nothing; without objects in place it is a reference or nothing. -/
theorem parallel_objectSlot {expected expected' : Option ShapeId}
    (he : Option.Rel p.rel expected expected') (nullable : Bool) :
    p.Parallel Eq (input.objectSlot readFields expected nullable)
      (input'.objectSlot readFields' expected' nullable) := by
  have htag := same_slotTag he
  simp only [objectSlot, h.wire]
  split
  · refine Pairing.parallel_offset.bind fun offset offset' _ => ?_
    refine (parallel_readTag h).bind fun marker marker' hmarker => ?_
    obtain ⟨hmarker, hmem⟩ := hmarker
    -- What stands in front tells on both sides alike what follows: an object in place, a
    -- reference or null.
    cases hmarker with
    | @shape id id' hid =>
        -- A declared shape is compared with the one that is found, and both are related to their
        -- partners.
        have hexpected : expected.all (· = id) = true → expected'.all (· = id') = true := by
          cases he with
          | none => exact fun _ => rfl
          | some hexpected => simpa using (Relator.rel_eq h.biUnique hexpected hid).mp
        refine (Pairing.parallel_ensure hexpected).bind fun _ _ _ => ?_
        refine (hfields id id' hid hmem).bind fun object object' hobject => ?_
        subst hobject
        exact (Pairing.parallel_pushNode _).bind fun node node' hnode =>
          Pairing.parallel_pure (congrArg Value.object hnode)
    | builtin b =>
        cases b with
        | null => exact parallel_nullOr _ _ _ _ _
        | object =>
            refine (parallel_fromTag h (input'.wire.indexEncoding.local_readIndex).located
              htag).bind fun x x' hindex => ?_
            obtain ⟨offset, index⟩ := x
            obtain ⟨offset', index'⟩ := x'
            obtain rfl : index = index' := hindex
            exact parallel_objectRef h he index offset offset'
        | _ => exact Pairing.parallel_fail
  -- Without objects in place a slot holds nothing but a reference.
  · refine (parallel_fromTag h (input'.wire.indexEncoding.local_readReference).located
      htag).bind fun x x' hindex => ?_
    obtain ⟨offset, index⟩ := x
    obtain ⟨offset', index'⟩ := x'
    obtain rfl : index = index' := hindex
    cases index with
    | some index => exact parallel_objectRef h he index offset offset'
    | none => exact parallel_nullOr _ _ _ _ _

/-- What stands under a tag is read in parallel. References are compared as indices, and the same
index leads to the same string, array or object on both sides. -/
theorem parallel_underTag {tag tag' : Tag} (ht : tag.Same p.rel tag') (nullable : Bool) :
    p.Parallel Eq (input.underTag readFields tag nullable)
      (input'.underTag readFields' tag' nullable) := by
  cases ht with
  | shape hid => exact parallel_objectSlot h hfields (.some hid) nullable
  | builtin b =>
      cases b with
      | null | trueValue | falseValue => exact Pairing.parallel_pure rfl
      | integer =>
          simp only [underTag, h.wire]
          exact (parallel_fromTag h (input'.wire.indexEncoding.local_readInteger).steady
            (.builtin .integer)).bind fun i i' hi => Pairing.parallel_pure (by rw [hi])
      | double =>
          exact (parallel_fromTag h Read.local_double.steady
            (.builtin .double)).bind fun d d' hd => Pairing.parallel_pure (by rw [hd])
      | string =>
          simp only [underTag, h.wire, h.strings]
          refine (parallel_fromTag h (input'.wire.indexEncoding.local_readReference).located
            (.builtin .string)).bind fun x x' hindex => ?_
          obtain ⟨offset, index⟩ := x
          obtain ⟨offset', index'⟩ := x'
          obtain rfl : index = index' := hindex
          cases index with
          | none => exact parallel_nullOr _ _ _ _ _
          | some index =>
              refine (Pairing.parallel_require (R := Eq) ?_).bind fun s s' hs =>
                Pairing.parallel_pure (by rw [hs])
              -- A string is looked up in the same list on both sides.
              cases input'.strings[index]? with
              | none => exact .none
              | some s => exact .some rfl
      | array =>
          simp only [underTag, h.wire]
          refine (parallel_fromTag h (input'.wire.indexEncoding.local_readReference).located
            (.builtin .array)).bind fun x x' hindex => ?_
          obtain ⟨offset, index⟩ := x
          obtain ⟨offset', index'⟩ := x'
          obtain rfl : index = index' := hindex
          cases index with
          | none => exact parallel_nullOr _ _ _ _ _
          | some index =>
              refine Pairing.Parallel.bind (Pairing.parallel_ensure fun hlt => h.arrayCount ▸ hlt)
                fun _ _ _ => ?_
              rw [h.firstArray]
              exact Pairing.parallel_pure rfl
      | object => exact parallel_objectSlot h hfields .none nullable
      | any | boolean | number =>
          exact Pairing.parallel_offset.bind fun _ _ _ => Pairing.parallel_fail

/-- Slots of layouts that are the same up to positions are read in parallel, be the tag in the
layout or in the bytes. -/
theorem parallel_slot {codec codec' : Codec} (hc : codec.Same p.rel codec') :
    p.Parallel Eq (input.slot readFields codec) (input'.slot readFields' codec') := by
  cases hc with
  | fixed ht nullable => exact parallel_underTag h hfields ht nullable
  | tagged hdecl =>
      refine Pairing.parallel_offset.bind fun offset offset' _ => ?_
      refine (parallel_readTag h).bind fun tag tag' htag => ?_
      obtain ⟨htag, -⟩ := htag
      have hany : tag ≠ .builtin .any → tag' ≠ .builtin .any := (not_congr htag.eq_builtin_iff).mp
      refine (Pairing.parallel_ensure hany).bind fun _ _ _ => ?_
      rw [hdecl.accepts_eq h.biUnique htag, htag.isTerminal_eq]
      exact (Pairing.parallel_ensure id).bind fun _ _ _ => parallel_underTag h hfields htag false

/-- Shapes that are declared alike have the same fields in the same slots. -/
theorem parallel_fieldSlots {id id' : ShapeId} (hid : p.rel id id') (hmem : .shape id ∈ input.tags) :
    p.Parallel Eq (input.fieldSlots readFields id) (input'.fieldSlots readFields' id') := by
  have hsame := h.fields id id' hid hmem
  simp only [fieldSlots, h.wire, h.names id id' hid]
  refine (Pairing.parallel_mapM hsame fun field field' hfield =>
    parallel_slot h hfields (.ofDecl hfield.2 _)).bind fun values values' hvalues => ?_
  rw [List.forall₂_eq_eq_eq] at hvalues
  have hnames : (input.registry.fields id).map (·.name) =
      (input'.registry.fields id').map (·.name) :=
    map_eq_of_forall₂ hsame fun _ _ hfield => hfield.1
  rw [hvalues, hnames]
  exact Pairing.parallel_pure rfl

omit hfields

/-- The induction over nested objects. The second side may go deeper than the first one, as it does
when its module is longer. -/
theorem parallel_fieldsWithin {depth depth' : Nat} (hdepth : depth ≤ depth') {id id' : ShapeId}
    (hid : p.rel id id') (hmem : .shape id ∈ input.tags) :
    p.Parallel Eq (input.fieldsWithin depth id) (input'.fieldsWithin depth' id') := by
  induction depth generalizing depth' id id' with
  | zero =>
      refine Pairing.parallel_of_error fun s a t hrun => ?_
      rw [fieldsWithin, run_bind_of_ok run_get] at hrun
      simp at hrun
  | succ depth ih =>
      obtain ⟨depth', rfl⟩ := Nat.exists_eq_add_of_lt (Nat.lt_of_lt_of_le (Nat.succ_pos _) hdepth)
      rw [Nat.zero_add] at hdepth ⊢
      exact parallel_fieldSlots h (fun _ _ => ih (Nat.le_of_succ_le_succ hdepth)) hid hmem

theorem parallel_objectFields {id id' : ShapeId} (hid : p.rel id id')
    (hmem : .shape id ∈ input.tags) :
    p.Parallel Eq (input.objectFields id) (input'.objectFields id') :=
  parallel_fieldsWithin h (Nat.succ_le_succ h.size) hid hmem

/-! ### Tables, arrays and the root

Every section is a sequence of slots, and an entry of a table goes to the same node on both
sides. -/

theorem parallel_readTableEntry {slots slots' : ObjectSlots} (hslots : slots.Same p.rel slots')
    (index : Nat) : p.Parallel (fun _ _ => True) (input.readTableEntry slots index)
      (input'.readTableEntry slots' index) := by
  refine Pairing.parallel_offset.bind fun offset offset' _ => ?_
  refine (parallel_readTag h).bind fun tag tag' htag => ?_
  obtain ⟨htag, hmem⟩ := htag
  cases htag with
  | builtin b => exact Pairing.parallel_fail
  | @shape id id' hid =>
      have hshape := hslots.shape
      have hfound : slots.shape.all (· = id) = true → slots'.shape.all (· = id') = true := by
        generalize slots.shape = shape at hshape ⊢
        generalize slots'.shape = shape' at hshape ⊢
        cases hshape with
        | none => exact fun _ => rfl
        | some hshape => simpa using (Relator.rel_eq h.biUnique hshape hid).mp
      refine (Pairing.parallel_ensure hfound).bind fun _ _ _ => ?_
      refine (parallel_objectFields h hid hmem).bind fun object object' hobject => ?_
      rw [hobject, hslots.first]
      exact Pairing.parallel_setNode _ _

theorem parallel_readTable {slots slots' : ObjectSlots} (hslots : slots.Same p.rel slots') :
    p.Parallel (fun _ _ => True) (input.readTable slots) (input'.readTable slots') := by
  simp only [readTable, hslots.label, hslots.count]
  exact (Pairing.parallel_count _ _).bind fun _ _ _ =>
    (Pairing.parallel_replicate (fun i => parallel_readTableEntry h hslots i) _).bind fun _ _ _ =>
      Pairing.parallel_pure trivial

theorem parallel_readElements (length : Nat) :
    p.Parallel Eq (input.readElements length) (input'.readElements length) := by
  simp only [readElements, h.wire]
  split
  · exact Pairing.parallel_pure rfl
  · refine (parallel_readTag h).bind fun tag tag' htag => ?_
    refine (Pairing.parallel_replicate (fun _ => parallel_slot h
      (fun id id' => parallel_objectFields h) (.ofElement htag.1 _)) _).imp
      fun values values' hvalues => ?_
    rwa [List.forall₂_eq_eq_eq] at hvalues

theorem parallel_readArray (index : Nat) :
    p.Parallel (fun _ _ => True) (input.readArray index) (input'.readArray index) := by
  simp only [readArray, h.firstArray]
  refine (Pairing.parallel_fromSection Read.local_unsigned.located).bind fun x x' hlength => ?_
  obtain ⟨offset, length⟩ := x
  obtain ⟨offset', length'⟩ := x'
  obtain rfl : length = length' := hlength
  refine (Pairing.parallel_ensure id).bind fun _ _ _ => ?_
  refine (parallel_readElements h length).bind fun elements elements' helements => ?_
  rw [helements]
  exact Pairing.parallel_setNode _ _

theorem parallel_readArrays :
    p.Parallel (fun _ _ => True) input.readArrays input'.readArrays := by
  simp only [readArrays, h.arrayCount]
  exact (Pairing.parallel_count _ _).bind fun _ _ _ =>
    (Pairing.parallel_replicate (fun i => parallel_readArray h i) _).bind fun _ _ _ =>
      Pairing.parallel_pure trivial

theorem parallel_readRoot : p.Parallel Eq (input.slot input.objectFields (.tagged .any))
    (input'.slot input'.objectFields (.tagged .any)) :=
  parallel_slot h (fun _ _ => parallel_objectFields h) (.tagged .any)

end DecodeInput

end Module

end SyntaxPack
