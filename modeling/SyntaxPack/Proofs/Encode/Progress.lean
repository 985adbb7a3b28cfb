import SyntaxPack.Proofs.Encode.Checks
import SyntaxPack.Proofs.Encode.Walk
/-!
# SyntaxPack.Proofs.Encode.Progress

When a walk comes to its end.

The tables never stand in the way of a walk: a name that is added again has the value that
it had before. So a walk fails only over the tree, and a tree in which every node in use
passes the checks of the walk is walked to its end.
-/

namespace SyntaxPack

/-! ### Tables -/

namespace UniqueTable

variable {κ : Type} [DecidableEq κ] {t : UniqueTable κ}

/-- As long as nothing is merged, interning a value again is no divergence. -/
theorem Plain.intern_ok [EntryName κ] (hp : t.Plain) (horder : t.order = none) (x : κ) :
    ∃ r, t.intern x = .ok r := by
  unfold intern Table.add
  rw [show t.ensureBuilding = .ok () from Table.ensureBuilding_eq_ok.mpr horder, ok_bind]
  cases hget : t.get? x with
  | none => exact ⟨_, rfl⟩
  | some a =>
      have hmem : x ∈ t.names := by
        by_contra hx
        simp [Table.get?_eq_none_iff.mpr hx] at hget
      have hvalue : t.value? a = some x := by
        have hrep := hp x hmem
        rwa [rep, hget, Option.bind_some] at hrep
      simp [hvalue]

end UniqueTable

namespace Module

variable {registry : Registry} {shapes : List ShapeId} {shape : ShapeId}

theorem TagTable.add_ok {t : Table String Tag} (h : TagTable registry shapes t) (hr : registry.Valid)
    (horder : t.order = none) (hshape : shape.index < registry.shapes.length) :
    ∃ r, t.add (registry.tagName (.shape shape)) (.shape shape) = .ok r := by
  unfold Table.add
  rw [show t.ensureBuilding = .ok () from Table.ensureBuilding_eq_ok.mpr horder, ok_bind]
  cases hget : t.get? (registry.tagName (.shape shape)) with
  | none => exact ⟨_, rfl⟩
  | some a =>
      obtain ⟨b, entry, hentry, hname, hresolve⟩ := (h.wellFormed hr).get?_eq_some_iff.mp hget
      have hlive : t.IsLive b := ⟨entry, hentry, h.redirect_eq (List.mem_of_getElem? hentry)⟩
      obtain rfl : b = a := hlive.resolve_eq.symm.trans hresolve
      -- the entry has the name of the tag, so it is that of the tag
      have hvalue : (tagsOf shapes)[b.slot]? = some entry.value := by
        rw [← h.values, List.getElem?_map, hentry, Option.map_some]
      have hnames : t.names[b.slot]? = some entry.name := by
        rw [Table.names, List.getElem?_map, hentry, Option.map_some]
      rw [h.names, List.getElem?_map, hvalue, Option.map_some, Option.some.injEq, hname] at hnames
      have htag := hr.tagName_inj (h.registered_of_mem (List.mem_of_getElem? hvalue))
        (show Tag.Registered registry (.shape shape) from hshape) hnames
      have hfound : t.value? b = some (.shape shape) := by
        rw [Table.value?, Table.entry?, hlive.resolve_eq, hentry, Option.map_some, htag]
      simp [hfound]

end Module

/-- What is changed is the table of the shape, set up if need be. -/
theorem ObjectTables.update_ok {objects : ObjectTables} {registry : Registry} {shape : ShapeId}
    {f : UniqueTable NodeId → Except TableError (UniqueTable NodeId)} {t : UniqueTable NodeId}
    (h : f (objects.tableOrEmpty registry shape) = .ok t) :
    ∃ r, objects.update registry shape f = .ok r := by
  unfold update
  cases htable : (objects.ensureTable registry shape).table? shape with
  | none =>
      refine ⟨objects.ensureTable registry shape, ?_⟩
      simp only [htable]
  | some u =>
      have hu : u = objects.tableOrEmpty registry shape := by
        unfold ensureTable at htable
        split at htable
        · rw [tableOrEmpty, htable, Option.getD_some]
        · rename_i hnone
          have hnone : objects.table? shape = none := by simpa using hnone
          have hfind : objects.tables.find? (objects.holds shape) = none := by
            simpa [table?] using hnone
          have hholds : (fun table => holds { objects with
              tables := objects.tables ++ [⟨some shape, .empty (labelOf (registry.shapeName shape))
                objects.checkDivergence⟩] } shape table) = objects.holds shape := rfl
          rw [table?, List.find?_append] at htable
          simp only [hholds] at htable
          rw [hfind] at htable
          simp only [Option.none_or, List.find?_cons, holds, decide_true, Bool.or_true,
            Option.map_some, Option.some.injEq] at htable
          rw [tableOrEmpty, hnone, Option.getD_none, htable]
      rw [← hu] at h
      simp only [htable, h, ok_bind]
      exact ⟨_, rfl⟩

namespace Module

variable {tree : Tree} {registry : Registry} {shape : ShapeId} {id : NodeId} {m : Module}

theorem Gathered.internString_ok (h : m.Gathered tree registry) (s : String) :
    ∃ m', m.internString s = .ok m' := by
  obtain ⟨shapes, hf⟩ := h.filled
  obtain ⟨⟨a, strings⟩, hintern⟩ := UniqueTable.Plain.intern_ok hf.strings_plain h.building.strings s
  exact ⟨_, bind_eq_ok.mpr ⟨_, hintern, rfl⟩⟩

theorem Gathered.registerArray_ok (h : m.Gathered tree registry) (id : NodeId) :
    ∃ r, m.registerArray id = .ok r := by
  obtain ⟨⟨a, arrays⟩, hintern⟩ := UniqueTable.Plain.intern_ok h.unmerged.arrays h.building.arrays id
  exact ⟨_, bind_eq_ok.mpr ⟨_, hintern, rfl⟩⟩

theorem Gathered.registerObject_ok (h : m.Gathered tree registry) (hr : registry.Valid)
    (hshape : shape.index < registry.shapes.length) (id : NodeId) :
    ∃ r, m.registerObject registry shape id = .ok r := by
  obtain ⟨shapes, hf⟩ := h.filled
  obtain ⟨⟨a, tags⟩, htags⟩ := hf.tags.add_ok hr h.building.tags hshape
  have htable : UniqueTable.Plain (m.objects.tableOrEmpty registry shape) ∧
      (m.objects.tableOrEmpty registry shape).order = none := by
    rw [ObjectTables.tableOrEmpty]
    cases ht : m.objects.table? shape with
    | some t => exact ⟨h.unmerged.objects shape t ht, h.building.objects shape t ht⟩
    | none => exact ⟨fun x hx => by simp [UniqueTable.names_empty] at hx, rfl⟩
  obtain ⟨⟨b, table⟩, hintern⟩ := UniqueTable.Plain.intern_ok htable.1 htable.2 id
  refine Exists.elim (@ObjectTables.update_ok _ _ _ _ table ?changed) fun objects hobjects =>
    ⟨_, bind_eq_ok.mpr ⟨_, htags, bind_eq_ok.mpr ⟨_, hobjects, rfl⟩⟩⟩
  exact bind_eq_ok.mpr ⟨_, hintern, rfl⟩

/-! ### The walk -/

namespace WalkInput

variable {input : WalkInput} {opened : List NodeId} {s : WalkState} {value : Value}

/-- A node passes the checks of the walk. -/
structure Passes (input : WalkInput) (id : NodeId) : Prop where
  slots : ∀ value ∈ input.tree.slots input.registry id, input.Leads value
  array : ∀ elements, input.tree.array? id = some elements → ∃ tags tag,
    List.Forall₂ (fun value tag => input.tagOf value = .ok tag) elements tags ∧
      input.elementTag id tags = .ok tag
  object : ∀ object shape, input.tree.object? id = some object →
    input.registry.lookup object.shape = some shape →
    input.checkDeclared ⟨input.registry.shapeName shape, input.registry.fields shape⟩ object =
        .ok () ∧
      ∀ field ∈ input.registry.fields shape, input.checkField (input.registry.shapeName shape)
        field (object.get field.name) = .ok ()

/-- Wherever a value can be walked, its walk comes to an end. -/
def Proceeds (input : WalkInput) (visit : Value → WalkState → Except Error WalkState)
    (opened : List NodeId) : Prop :=
  ∀ value s, input.Inv opened s → input.Admits opened value → input.Leads value →
    ∃ s', visit value s = .ok s'

theorem Proceeds.visitElements {visit : Value → WalkState → Except Error WalkState}
    (hwalks : input.Walks visit opened) (hvisit : input.Proceeds visit opened) {values : List Value}
    {tags : List Tag} (htags : List.Forall₂ (fun value tag => input.tagOf value = .ok tag) values tags)
    (hs : input.Inv opened s) (hvalues : ∀ value ∈ values, input.Admits opened value ∧ input.Leads value) :
    ∃ s', input.visitElements visit values s = .ok (tags, s') := by
  induction htags generalizing s with
  | nil => exact ⟨s, rfl⟩
  | @cons value tag values tags htag _ ih =>
      obtain ⟨hadmits, hleads⟩ := hvalues value List.mem_cons_self
      obtain ⟨t, ht⟩ := hvisit value s hs hadmits hleads
      obtain ⟨hinv, -, -⟩ := hwalks value s t ht hs hadmits
      obtain ⟨u, hu⟩ := ih hinv fun other hother => hvalues other (List.mem_cons_of_mem value hother)
      exact ⟨u, bind_eq_ok.mpr ⟨t, ht, bind_eq_ok.mpr ⟨tag, htag, bind_eq_ok.mpr ⟨_, hu, rfl⟩⟩⟩⟩

theorem Proceeds.visitFields {visit : Value → WalkState → Except Error WalkState}
    (hwalks : input.Walks visit opened) (hvisit : input.Proceeds visit opened) {shape : String}
    {object : Object} {fields : List Field} (hs : input.Inv opened s)
    (hchecks : ∀ field ∈ fields, input.checkField shape field (object.get field.name) = .ok ())
    (hvalues : ∀ field ∈ fields, input.Admits opened (object.get field.name) ∧
      input.Leads (object.get field.name)) :
    ∃ s', input.visitFields visit shape object fields s = .ok s' := by
  induction fields generalizing s with
  | nil => exact ⟨s, rfl⟩
  | cons field fields ih =>
      obtain ⟨hadmits, hleads⟩ := hvalues field List.mem_cons_self
      obtain ⟨t, ht⟩ := hvisit _ s hs hadmits hleads
      obtain ⟨hinv, -, -⟩ := hwalks _ s t ht hs hadmits
      obtain ⟨u, hu⟩ := ih hinv (fun other hother => hchecks other (List.mem_cons_of_mem field hother))
        fun other hother => hvalues other (List.mem_cons_of_mem field hother)
      exact ⟨u, bind_eq_ok.mpr ⟨(), hchecks field List.mem_cons_self, bind_eq_ok.mpr ⟨t, ht, hu⟩⟩⟩

theorem Proceeds.visitValue {visit : Value → WalkState → Except Error WalkState}
    (hr : input.registry.Valid) (hpasses : ∀ id, input.tree.InUse input.registry id → input.Passes id)
    (hwalks : ∀ id, input.Walks visit (id :: opened))
    (hvisit : ∀ id, input.Proceeds visit (id :: opened)) :
    input.Proceeds (input.visitValue visit) opened := by
  intro value s hs hid hleads
  cases value with
  | null | boolean _ | number _ => exact ⟨s, rfl⟩
  | string text =>
      obtain ⟨m, hm⟩ := hs.gathered.internString_ok text
      exact ⟨_, bind_eq_ok.mpr ⟨m, mapError_eq_ok.mpr hm, rfl⟩⟩
  | array id =>
      obtain ⟨elements, helements⟩ := Option.isSome_iff_exists.mp hleads
      obtain ⟨⟨isNew, m⟩, hm⟩ := hs.gathered.registerArray_ok id
      obtain ⟨hreg, hnew⟩ := hs.gathered.registerArray hleads hm
      simp only [WalkInput.visitValue, Tree.requireArray_eq_ok.mpr helements, hm, Except.mapError, ok_bind]
      cases isNew with
      | false => exact ⟨_, rfl⟩
      | true =>
          have hnode := hpasses id (hid id rfl).1
          obtain ⟨tags, tag, htags, htag⟩ := hnode.array elements helements
          have hslots : input.tree.slots input.registry id = elements := Tree.slots_of_array helements
          obtain ⟨t, ht⟩ := (hvisit id).visitElements (hwalks id) htags
            (hs.open hid rfl hreg (hnew.mp rfl)) fun value hvalue =>
              ⟨admits_slot hid rfl (hslots ▸ hvalue), hnode.slots value (hslots ▸ hvalue)⟩
          exact ⟨_, bind_eq_ok.mpr ⟨_, ht, bind_eq_ok.mpr ⟨tag, htag, rfl⟩⟩⟩
  | object id =>
      obtain ⟨shape, hshape⟩ := Option.isSome_iff_exists.mp hleads
      obtain ⟨object, hobject, hlookup⟩ := Tree.shape?_eq_some_iff.mp hshape
      obtain ⟨⟨isNew, m⟩, hm⟩ :=
        hs.gathered.registerObject_ok hr (Registry.lookup_eq_some hlookup).1 id
      obtain ⟨hreg, hnew⟩ := hs.gathered.registerObject hr hshape hm
      simp only [WalkInput.visitValue, Tree.requireObject_eq_ok.mpr hobject,
        Registry.shapeOf_eq_ok.mpr hlookup, hm, Except.mapError, ok_bind]
      cases isNew with
      | false => exact ⟨_, rfl⟩
      | true =>
          have hnode := hpasses id (hid id rfl).1
          obtain ⟨hdeclared, hchecks⟩ := hnode.object object shape hobject hlookup
          have hslots := Tree.slots_of_object hobject hlookup
          obtain ⟨t, ht⟩ := (hvisit id).visitFields (hwalks id)
            (hs.open hid rfl hreg (hnew.mp rfl)) hchecks fun field hfield =>
              have hvalue := hslots ▸ List.mem_map_of_mem hfield
              ⟨admits_slot hid rfl hvalue, hnode.slots _ hvalue⟩
          exact ⟨_, bind_eq_ok.mpr ⟨(), hdeclared, bind_eq_ok.mpr ⟨t, ht, rfl⟩⟩⟩

theorem proceeds_visit (hr : input.registry.Valid)
    (hpasses : ∀ id, input.tree.InUse input.registry id → input.Passes id) (depth : Nat)
    (hroom : input.tree.size < opened.length + depth) :
    input.Proceeds (input.visit depth) opened := by
  induction depth generalizing opened with
  | zero => exact fun _ s _ _ _ => ⟨s, rfl⟩
  | succ depth ih =>
      refine Proceeds.visitValue hr hpasses (fun id => ?_) fun id => ih (by rw [List.length_cons]; omega)
      exact walks_visit hr depth (by rw [List.length_cons]; omega)

/-- A tree in which every node in use passes the checks is walked to its end. -/
theorem walk_ok (hr : input.registry.Valid) (hroot : input.Leads input.tree.root)
    (hpasses : ∀ id, input.tree.InUse input.registry id → input.Passes id) : ∃ r, input.walk = .ok r := by
  obtain ⟨s, hs⟩ := proceeds_visit hr hpasses (input.tree.size + 1) (by simp) _ _ (inv_empty input)
    (fun id hid => ⟨⟨id, hid, .refl⟩, by simp⟩) hroot
  exact ⟨_, bind_eq_ok.mpr ⟨s, hs, rfl⟩⟩

end WalkInput

end Module

end SyntaxPack
