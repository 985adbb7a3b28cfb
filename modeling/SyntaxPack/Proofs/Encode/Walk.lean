import SyntaxPack.Proofs.Encode.Registered
/-!
# SyntaxPack.Proofs.Encode.Walk

What the walk over a tree establishes.

While the walk is inside some nodes, these are *open*: they are registered, their
slots are not all walked. Every other registered node is finished, and of a finished
node everything is known: its slots are registered and its checks have passed. The
open nodes lie on a path to the node that is walked, so a slot of a finished node
leads to a node that finished before or, on a cycle, back to the node itself.

The fuel of the walk never runs out: open nodes are different nodes of the tree, and
as many of them are open as fuel was used.

The walk of a node runs the walk of its slots, so the lemmas come in two layers. `Walks` is what is
asked of the walk of a value; `visitElements`, `visitFields` and `visitValue` keep it, whatever is
plugged in for the walk below, and `walks_visit` ties the knot by induction on the fuel. `Visited`
says once what one visit does, one case for each kind of value, and later modules (`Visits`, `Log`)
start from it as well.
-/

namespace SyntaxPack

namespace Module

namespace WalkInput

variable (input : WalkInput)

/-- All of a node is registered and checked: what its slots hold is in the tables, an array has the
element tag that its elements agree on, and an object has passed the checks of its declared fields.
-/
structure Complete (m : Module) (id : NodeId) : Prop where
  slots : ∀ value ∈ input.tree.slots input.registry id,
    m.Holds input.tree input.registry value
  array : ∀ elements, input.tree.array? id = some elements → ∃ tags tag,
    List.Forall₂ (fun value tag => input.tagOf value = .ok tag) elements tags ∧
      input.elementTag id tags = .ok tag ∧ m.elementTag? id = some tag
  object : ∀ object shape, input.tree.object? id = some object →
    input.registry.lookup object.shape = some shape →
    input.checkDeclared ⟨input.registry.shapeName shape, input.registry.fields shape⟩ object =
        .ok () ∧
      ∀ field ∈ input.registry.fields shape, input.checkField (input.registry.shapeName shape)
        field (object.get field.name) = .ok ()

/-- Every slot of a node leads to a node that is listed behind it or leads back to it. Nodes are put
in front of the list when they are finished, so this says that what a node refers to is finished
before the node, cycles apart. -/
def Ordered (finished : List NodeId) : Prop :=
  ∀ before id after, finished = before ++ id :: after →
    ∀ value ∈ input.tree.slots input.registry id, ∀ child, value.node? = some child →
      child ∈ after ∨ input.tree.Above input.registry child id

/-- What holds of a walk while some nodes are open. The nodes of the module are those that are open
and those that are finished, no node is both, and of the finished ones all is known. -/
structure Inv (opened : List NodeId) (s : WalkState) : Prop where
  gathered : s.module.Gathered input.tree input.registry
  partitioned : s.module.objects.partitioned = input.config.partitionedTables
  hasNode_iff : ∀ id, s.module.HasNode input.tree input.registry id ↔
    id ∈ opened ∨ id ∈ s.finished
  nodup : (opened ++ s.finished).Nodup
  inUse : ∀ id ∈ opened ++ s.finished, input.tree.InUse input.registry id
  complete : ∀ id ∈ s.finished, input.Complete s.module id
  ordered : input.Ordered s.finished

/-- A value can be walked while some nodes are open: it leads to a node in use, to
which all open nodes lead. -/
def Admits (opened : List NodeId) (value : Value) : Prop :=
  ∀ id, value.node? = some id →
    input.tree.InUse input.registry id ∧ ∀ o ∈ opened, input.tree.Above input.registry o id

variable {input} {opened : List NodeId} {s s' : WalkState} {m m' : Module} {id : NodeId}
  {value : Value}

/-- A node that is complete stays so, unless its element tag is set again. -/
theorem Complete.mono (h : input.Complete m id) (hgrows : Extends m m')
    (htag : m'.elementTag? id = m.elementTag? id) : input.Complete m' id where
  slots value hvalue := hgrows.holds (h.slots value hvalue)
  array elements helements := by
    rw [htag]
    exact h.array elements helements
  object := h.object

/-! ### Opening and closing a node

A node is open from the moment it is registered until its slots have been walked. Opening it asks
that it was not registered before, and closing it that it is complete by then. -/

/-- A registered node that was not registered before is open. -/
theorem Inv.open (h : input.Inv opened s) (hid : input.Admits opened value)
    (hvalue : value.node? = some id) {m : Module}
    (hreg : Registered input.tree input.registry (some id) s.module m)
    (hnew : ¬ s.module.HasNode input.tree input.registry id) :
    input.Inv (id :: opened) { s with module := m } where
  gathered := hreg.gathered
  partitioned := hreg.grows.partitioned.trans h.partitioned
  hasNode_iff x := by
    rw [hreg.hasNode_iff, h.hasNode_iff, List.mem_cons, Option.some.injEq, @eq_comm _ id x]
    tauto
  nodup := by
    rw [h.hasNode_iff] at hnew
    rw [List.cons_append, List.nodup_cons, List.mem_append]
    exact ⟨hnew, h.nodup⟩
  inUse x hx := by
    rw [List.cons_append, List.mem_cons] at hx
    rcases hx with rfl | hx
    · exact (hid x hvalue).1
    · exact h.inUse x hx
  complete x hx := (h.complete x hx).mono hreg.grows (by rw [elementTag?, hreg.elementTags, elementTag?])
  ordered := h.ordered

/-- The nodes that are open lead to the slots of the last one. -/
theorem admits_slot (hid : input.Admits opened value) (hvalue : value.node? = some id)
    {slot : Value} (hslot : slot ∈ input.tree.slots input.registry id) :
    input.Admits (id :: opened) slot := by
  intro child hchild
  have hstep : input.tree.HasChild input.registry id child := ⟨slot, hslot, hchild⟩
  obtain ⟨hused, hopened⟩ := hid id hvalue
  refine ⟨hused.of_hasChild hstep, fun o ho => ?_⟩
  rcases List.mem_cons.mp ho with rfl | ho
  · exact Relation.TransGen.single hstep
  · exact (hopened o ho).tail hstep

/-- A node whose slots are walked is finished. -/
theorem Inv.close (h : input.Inv (id :: opened) s) (hid : input.Admits opened value)
    (hvalue : value.node? = some id) {m : Module} (hm : m.Gathered input.tree input.registry)
    (hgrows : Extends s.module m) (hnodes : ∀ x, m.HasNode input.tree input.registry x ↔
      s.module.HasNode input.tree input.registry x)
    (htags : ∀ x, x ≠ id → m.elementTag? x = s.module.elementTag? x)
    (hcomplete : input.Complete m id) : input.Inv opened ⟨m, id :: s.finished⟩ where
  gathered := hm
  partitioned := hgrows.partitioned.trans h.partitioned
  hasNode_iff x := by
    rw [hnodes, h.hasNode_iff, List.mem_cons, List.mem_cons]
    tauto
  nodup := List.nodup_middle.mpr h.nodup
  inUse x hx := h.inUse x (by
    simp only [List.mem_append, List.mem_cons] at hx ⊢
    tauto)
  complete x hx := by
    rcases List.mem_cons.mp hx with rfl | hfinished
    · exact hcomplete
    · refine (h.complete x hfinished).mono hgrows (htags x ?_)
      rintro rfl
      exact (List.nodup_cons.mp h.nodup).1 (List.mem_append_right _ hfinished)
  ordered := by
    intro before x after hsplit slot hslot child hchild
    -- The node that has just been closed is the first of the list; all others are as before.
    cases before with
    | nil =>
        simp only [List.nil_append, List.cons.injEq] at hsplit
        obtain ⟨rfl, rfl⟩ := hsplit
        have hhas := (hcomplete.slots slot hslot).hasNode hchild
        rw [hnodes, h.hasNode_iff] at hhas
        -- What its slots lead to is registered by now. If it is still open, it leads back to this
        -- node.
        rcases hhas with hopen | hfinished
        · rcases List.mem_cons.mp hopen with rfl | hopen
          · exact Or.inr (.single ⟨slot, hslot, hchild⟩)
          · exact Or.inr ((hid id hvalue).2 child hopen)
        · exact Or.inl hfinished
    | cons b before =>
        simp only [List.cons_append, List.cons.injEq] at hsplit
        exact h.ordered before x after hsplit.2 slot hslot child hchild

/-- Open nodes are different nodes of the tree. So there are no more of them than the tree has
nodes, and fuel for that many levels is enough. -/
theorem Inv.length_opened_le (h : input.Inv opened s) : opened.length ≤ input.tree.size := by
  refine Tree.length_le_size (List.nodup_append.mp h.nodup).1 fun x hx => ?_
  obtain ⟨node, hnode⟩ := ((h.hasNode_iff x).mpr (Or.inl hx)).exists_node
  exact Tree.lt_size_of_node? hnode

/-! ### Values one after another

Elements and fields are walked in their order, each from the state that the one before it has left.
The values so far stay registered while the walk goes on, since a module only grows. -/

/-- A walk of a value keeps the invariant and registers the value, as long as there is
room for all nodes that are not open. -/
def Walks (input : WalkInput) (visit : Value → WalkState → Except Error WalkState)
    (opened : List NodeId) : Prop :=
  ∀ value s s', visit value s = .ok s' → input.Inv opened s → input.Admits opened value →
    input.Inv opened s' ∧ Extends s.module s'.module ∧
      s'.module.Holds input.tree input.registry value

/-- The elements of an array are walked, and each of them has a runtime tag. The tags come out in
the order of the elements. -/
theorem Walks.visitElements {visit : Value → WalkState → Except Error WalkState}
    (hvisit : input.Walks visit opened) {values : List Value} {tags : List Tag}
    (h : input.visitElements visit values s = .ok (tags, s')) (hs : input.Inv opened s)
    (hvalues : ∀ value ∈ values, input.Admits opened value) :
    input.Inv opened s' ∧ Extends s.module s'.module ∧
      (∀ value ∈ values, s'.module.Holds input.tree input.registry value) ∧
      List.Forall₂ (fun value tag => input.tagOf value = .ok tag) values tags := by
  induction values generalizing s tags with
  | nil =>
      simp only [WalkInput.visitElements, Except.ok.injEq, Prod.mk.injEq] at h
      obtain ⟨rfl, rfl⟩ := h
      exact ⟨hs, .refl _, by simp, .nil⟩
  | cons value values ih =>
      obtain ⟨t, hvalue, h₁⟩ := bind_eq_ok.mp h
      obtain ⟨tag, htag, h₂⟩ := bind_eq_ok.mp h₁
      obtain ⟨⟨rest, u⟩, hrest, h₃⟩ := bind_eq_ok.mp h₂
      simp only [Except.ok.injEq, Prod.mk.injEq] at h₃
      obtain ⟨rfl, rfl⟩ := h₃
      obtain ⟨ht, hgrows, hholds⟩ := hvisit _ _ _ hvalue hs (hvalues value List.mem_cons_self)
      obtain ⟨hu, hgrows', hall, htags⟩ :=
        ih hrest ht fun v hv => hvalues v (List.mem_cons_of_mem _ hv)
      refine ⟨hu, hgrows.trans hgrows', fun v hv => ?_, .cons htag htags⟩
      rcases List.mem_cons.mp hv with rfl | hv
      · exact hgrows'.holds hholds
      · exact hall v hv

/-- The declared fields of an object are checked and walked, each of them before the next one is
looked at. -/
theorem Walks.visitFields {visit : Value → WalkState → Except Error WalkState}
    (hvisit : input.Walks visit opened) {shape : String} {object : Object} {fields : List Field}
    (h : input.visitFields visit shape object fields s = .ok s') (hs : input.Inv opened s)
    (hvalues : ∀ field ∈ fields, input.Admits opened (object.get field.name)) :
    input.Inv opened s' ∧ Extends s.module s'.module ∧
      (∀ field ∈ fields, s'.module.Holds input.tree input.registry (object.get field.name)) ∧
      ∀ field ∈ fields, input.checkField shape field (object.get field.name) = .ok () := by
  induction fields generalizing s with
  | nil =>
      simp only [WalkInput.visitFields, Except.ok.injEq] at h
      subst h
      exact ⟨hs, .refl _, by simp, by simp⟩
  | cons field fields ih =>
      obtain ⟨_, hcheck, h₁⟩ := bind_eq_ok.mp h
      obtain ⟨t, hvalue, h₂⟩ := bind_eq_ok.mp h₁
      obtain ⟨ht, hgrows, hholds⟩ := hvisit _ _ _ hvalue hs (hvalues field List.mem_cons_self)
      obtain ⟨hu, hgrows', hall, hchecks⟩ :=
        ih h₂ ht fun f hf => hvalues f (List.mem_cons_of_mem _ hf)
      refine ⟨hu, hgrows.trans hgrows', fun f hf => ?_, fun f hf => ?_⟩
      · rcases List.mem_cons.mp hf with rfl | hf
        · exact hgrows'.holds hholds
        · exact hall f hf
      · rcases List.mem_cons.mp hf with rfl | hf
        · exact hcheck
        · exact hchecks f hf

/-! ### The walk of a value

A value without a node leaves nothing but a hit at most. A node that is registered already is not
gone into again, be it finished or open, and this is why the walk ends on cycles. -/

/-- Registering what is registered already changes nothing but hits. -/
theorem Inv.again (h : input.Inv opened s) {node : Option NodeId} {m : Module}
    (hreg : Registered input.tree input.registry node s.module m)
    (hnode : ∀ id, node = some id → s.module.HasNode input.tree input.registry id) :
    input.Inv opened { s with module := m } where
  gathered := hreg.gathered
  partitioned := hreg.grows.partitioned.trans h.partitioned
  hasNode_iff x := by
    rw [hreg.hasNode_iff, ← h.hasNode_iff]
    exact ⟨fun hx => hx.elim id (hnode x), Or.inl⟩
  nodup := h.nodup
  inUse := h.inUse
  complete x hx :=
    (h.complete x hx).mono hreg.grows (by rw [elementTag?, hreg.elementTags, elementTag?])
  ordered := h.ordered

/-- Setting an element tag leaves all tables as they are. -/
theorem gathered_setElementTag (h : m.Gathered input.tree input.registry) (id : NodeId) (tag : Tag) :
    (m.setElementTag id tag).Gathered input.tree input.registry := by
  obtain ⟨shapes, hf⟩ := h.filled
  exact ⟨⟨shapes, { hf with }⟩, { h.building with }, { h.unmerged with }⟩

/-- The tag that is set is that of one array, and the tags of all others are what they were. -/
theorem elementTag?_setElementTag (m : Module) (id other : NodeId) (tag : Tag) :
    (m.setElementTag id tag).elementTag? other =
      if other = id then some tag else m.elementTag? other := by
  simp only [elementTag?, setElementTag, List.lookup_cons]
  by_cases h : other = id
  · simp [h]
  · rw [if_neg h, beq_false_of_ne h]

/-- An array that is new is opened, its elements are walked, and it is closed. -/
theorem Walks.array {visit : Value → WalkState → Except Error WalkState} {elements : List Value}
    (hvisit : input.Walks visit (id :: opened)) (hs : input.Inv opened s)
    (hid : input.Admits opened (.array id)) (helements : input.tree.array? id = some elements)
    (hreg : Registered input.tree input.registry (some id) s.module m)
    (hnew : ¬ s.module.HasNode input.tree input.registry id) {tags : List Tag} {tag : Tag}
    (hwalk : input.visitElements visit elements { s with module := m } = .ok (tags, s'))
    (htag : input.elementTag id tags = .ok tag) :
    input.Inv opened ⟨s'.module.setElementTag id tag, id :: s'.finished⟩ ∧
      Extends m (s'.module.setElementTag id tag) := by
  have hslots : input.tree.slots input.registry id = elements := Tree.slots_of_array helements
  obtain ⟨hu, hgrows, hall, htags⟩ := hvisit.visitElements hwalk (hs.open hid rfl hreg hnew)
    fun v hv => admits_slot hid rfl (hslots ▸ hv)
  have hset : Extends s'.module (s'.module.setElementTag id tag) :=
    ⟨fun _ h => h, fun _ h => h, fun _ _ h => h, rfl⟩
  refine ⟨hu.close hid rfl (gathered_setElementTag hu.gathered id tag) hset (fun x => Iff.rfl)
    (fun x hx => by rw [elementTag?_setElementTag, if_neg hx]) ⟨fun v hv => ?_, fun es hes => ?_,
      fun object shape hobject _ => ?_⟩, hgrows.trans hset⟩
  · exact hset.holds (hall v (hslots ▸ hv))
  · obtain rfl : elements = es := Option.some.inj (helements.symm.trans hes)
    exact ⟨tags, tag, htags, htag, by rw [elementTag?_setElementTag, if_pos rfl]⟩
  · rw [Tree.array?_eq_none_of_object hobject] at helements
    simp at helements

/-- An object that is new is opened, its fields are walked, and it is closed. -/
theorem Walks.object {visit : Value → WalkState → Except Error WalkState} {object : Object}
    {shape : ShapeId} (hvisit : input.Walks visit (id :: opened)) (hs : input.Inv opened s)
    (hid : input.Admits opened (.object id)) (hobject : input.tree.object? id = some object)
    (hshape : input.registry.lookup object.shape = some shape)
    (hreg : Registered input.tree input.registry (some id) s.module m)
    (hnew : ¬ s.module.HasNode input.tree input.registry id)
    (hdeclared : input.checkDeclared
      ⟨input.registry.shapeName shape, input.registry.fields shape⟩ object = .ok ())
    (hwalk : input.visitFields visit (input.registry.shapeName shape) object
      (input.registry.fields shape) { s with module := m } = .ok s') :
    input.Inv opened { s' with finished := id :: s'.finished } ∧ Extends m s'.module := by
  have hslots : input.tree.slots input.registry id =
      Tree.declaredValues input.registry shape object := Tree.slots_of_object hobject hshape
  obtain ⟨hu, hgrows, hall, hchecks⟩ := hvisit.visitFields hwalk (hs.open hid rfl hreg hnew)
    fun field hfield => admits_slot hid rfl (hslots ▸ List.mem_map_of_mem hfield)
  refine ⟨hu.close hid rfl hu.gathered (.refl _) (fun x => Iff.rfl) (fun _ _ => rfl)
    ⟨fun v hv => ?_, fun elements helements => ?_, fun other own hother hown => ?_⟩, hgrows⟩
  · rw [hslots] at hv
    obtain ⟨field, hfield, rfl⟩ := List.mem_map.mp hv
    exact hall field hfield
  · rw [Tree.array?_eq_none_of_object hobject] at helements
    simp at helements
  · obtain rfl : object = other := Option.some.inj (hobject.symm.trans hother)
    obtain rfl : shape = own := Option.some.inj (hshape.symm.trans hown)
    exact ⟨hdeclared, hchecks⟩

/-- What walking a value does: a string is interned and a node registered, and a node that is new
is gone into. -/
inductive Visited (input : WalkInput) (visit : Value → WalkState → Except Error WalkState)
    (s : WalkState) : Value → WalkState → Prop
  | null : Visited input visit s .null s
  | boolean (value : Bool) : Visited input visit s (.boolean value) s
  | number (value : Double) : Visited input visit s (.number value) s
  | string {t : String} {m : Module} (intern : s.module.internString t = .ok m) :
      Visited input visit s (.string t) { s with module := m }
  | knownArray {id : NodeId} {elements : List Value} {m : Module}
      (array : input.tree.array? id = some elements)
      (register : s.module.registerArray id = .ok (false, m)) :
      Visited input visit s (.array id) { s with module := m }
  | newArray {id : NodeId} {elements : List Value} {m : Module} {tags : List Tag} {tag : Tag}
      {t : WalkState} (array : input.tree.array? id = some elements)
      (register : s.module.registerArray id = .ok (true, m))
      (below : input.visitElements visit elements { s with module := m } = .ok (tags, t))
      (elementTag : input.elementTag id tags = .ok tag) :
      Visited input visit s (.array id) ⟨t.module.setElementTag id tag, id :: t.finished⟩
  | knownObject {id : NodeId} {shape : ShapeId} {m : Module}
      (shape? : input.tree.shape? input.registry id = some shape)
      (register : s.module.registerObject input.registry shape id = .ok (false, m)) :
      Visited input visit s (.object id) { s with module := m }
  | newObject {id : NodeId} {object : Object} {shape : ShapeId} {m : Module} {t : WalkState}
      (object? : input.tree.object? id = some object)
      (lookup : input.registry.lookup object.shape = some shape)
      (register : s.module.registerObject input.registry shape id = .ok (true, m))
      (declared : input.checkDeclared
        ⟨input.registry.shapeName shape, input.registry.fields shape⟩ object = .ok ())
      (below : input.visitFields visit (input.registry.shapeName shape) object
        (input.registry.fields shape) { s with module := m } = .ok t) :
      Visited input visit s (.object id) { t with finished := id :: t.finished }

/-- Every visit that succeeds is one of the cases. This is the only place where the function is
taken apart. -/
theorem visited_of_visitValue {visit : Value → WalkState → Except Error WalkState} {value : Value}
    (h : input.visitValue visit value s = .ok s') : input.Visited visit s value s' := by
  cases value with
  | null => exact Except.ok.inj h ▸ .null
  | boolean value => exact Except.ok.inj h ▸ .boolean value
  | number value => exact Except.ok.inj h ▸ .number value
  | string t =>
      obtain ⟨m, hm, h₁⟩ := bind_eq_ok.mp h
      obtain rfl := Except.ok.inj h₁
      exact .string (mapError_eq_ok.mp hm)
  | array id =>
      obtain ⟨elements, helements, h₁⟩ := bind_eq_ok.mp h
      obtain ⟨⟨isNew, m⟩, hm, h₂⟩ := bind_eq_ok.mp h₁
      rw [Tree.requireArray_eq_ok] at helements
      rw [mapError_eq_ok] at hm
      cases isNew with
      | true =>
          obtain ⟨⟨tags, t⟩, hwalk, h₃⟩ := bind_eq_ok.mp h₂
          obtain ⟨tag, htag, h₄⟩ := bind_eq_ok.mp h₃
          exact Except.ok.inj h₄ ▸ .newArray helements hm hwalk htag
      | false =>
          simp only [Bool.false_eq_true, if_false, Except.ok.injEq] at h₂
          exact h₂ ▸ .knownArray helements hm
  | object id =>
      obtain ⟨object, hobject, h₁⟩ := bind_eq_ok.mp h
      obtain ⟨shape, hlookup, h₂⟩ := bind_eq_ok.mp h₁
      obtain ⟨⟨isNew, m⟩, hm, h₃⟩ := bind_eq_ok.mp h₂
      rw [Tree.requireObject_eq_ok] at hobject
      rw [Registry.shapeOf_eq_ok] at hlookup
      rw [mapError_eq_ok] at hm
      cases isNew with
      | true =>
          obtain ⟨_, hdeclared, h₄⟩ := bind_eq_ok.mp h₃
          obtain ⟨t, hwalk, h₅⟩ := bind_eq_ok.mp h₄
          exact Except.ok.inj h₅ ▸ .newObject hobject hlookup hm hdeclared hwalk
      | false =>
          simp only [Bool.false_eq_true, if_false, Except.ok.injEq] at h₃
          exact h₃ ▸ .knownObject (Tree.shape?_eq_some_iff.mpr ⟨object, hobject, hlookup⟩) hm

/-- A node that is not new was registered before. -/
theorem hasNode_of_known {isNew : Bool} (hnew : isNew = true ↔ ¬ m.HasNode input.tree input.registry id)
    (hknown : isNew = false) : m.HasNode input.tree input.registry id :=
  not_not.mp fun hnot => by simpa [hknown] using hnew.mpr hnot

/-- A visit keeps the invariant if the visits of what is below do, with one more node open. -/
theorem Walks.visitValue {visit : Value → WalkState → Except Error WalkState}
    (hr : input.registry.Valid) (hvisit : ∀ id, input.Walks visit (id :: opened)) :
    input.Walks (input.visitValue visit) opened := by
  intro value s s' h hs hid
  cases visited_of_visitValue h with
  | null | boolean _ | number _ => exact ⟨hs, .refl _, trivial⟩
  | string hm =>
      obtain ⟨hreg, hmem⟩ := hs.gathered.internString hm
      exact ⟨hs.again hreg (by simp), hreg.grows, hmem⟩
  | @knownArray id elements m helements hm =>
      have harray : (input.tree.array? id).isSome = true := by simp [helements]
      obtain ⟨hreg, hnew⟩ := hs.gathered.registerArray harray hm
      have hhas := hasNode_of_known hnew rfl
      refine ⟨hs.again hreg ?_, hreg.grows, harray, hreg.grows.arrays id
        ((hasNode_array_iff harray).mp hhas)⟩
      rintro _ ⟨⟩
      exact hhas
  | @newArray id elements m tags tag t helements hm hwalk htag =>
      have harray : (input.tree.array? id).isSome = true := by simp [helements]
      obtain ⟨hreg, hnew⟩ := hs.gathered.registerArray harray hm
      have hhas : m.Holds input.tree input.registry (.array id) :=
        ⟨harray, (hasNode_array_iff harray).mp ((hreg.hasNode_iff id).mpr (Or.inr rfl))⟩
      obtain ⟨hinv, hgrows⟩ :=
        (hvisit id).array hs hid helements hreg (hnew.mp rfl) hwalk htag
      exact ⟨hinv, hreg.grows.trans hgrows, hgrows.holds hhas⟩
  | @knownObject id shape m hshape hm =>
      obtain ⟨hreg, hnew⟩ := hs.gathered.registerObject hr hshape hm
      have hhas := hasNode_of_known hnew rfl
      refine ⟨hs.again hreg ?_, hreg.grows, shape, hshape, hreg.grows.objects shape id
        ((hasNode_object_iff hshape).mp hhas)⟩
      rintro _ ⟨⟩
      exact hhas
  | @newObject id object shape m t hobject hlookup hm hdeclared hwalk =>
      have hshape := Tree.shape?_eq_some_iff.mpr ⟨object, hobject, hlookup⟩
      obtain ⟨hreg, hnew⟩ := hs.gathered.registerObject hr hshape hm
      have hhas : m.Holds input.tree input.registry (.object id) :=
        ⟨shape, hshape, (hasNode_object_iff hshape).mp ((hreg.hasNode_iff id).mpr (Or.inr rfl))⟩
      obtain ⟨hinv, hgrows⟩ :=
        (hvisit id).object hs hid hobject hlookup hreg (hnew.mp rfl) hdeclared hwalk
      exact ⟨hinv, hreg.grows.trans hgrows, hgrows.holds hhas⟩

/-- If there is room for all nodes that are not open, a walk of a value keeps the
invariant and registers the value. -/
theorem walks_visit (hr : input.registry.Valid) (depth : Nat)
    (hroom : input.tree.size < opened.length + depth) : input.Walks (input.visit depth) opened := by
  induction depth generalizing opened with
  | zero =>
      intro value s s' _ hs
      have := hs.length_opened_le
      omega
  | succ depth ih =>
      exact Walks.visitValue hr fun id => ih (by rw [List.length_cons]; omega)

/-! ### The walk of a tree

The walk starts with an empty module and with fuel for as many levels as the tree has nodes. At its
end no node is open, so every node that is registered is complete. -/

/-- A module without content is as the walk starts with. It has the built-in tags and, unless tables
are partitioned, one table for objects, and nothing is registered in any table. -/
theorem inv_empty (input : WalkInput) : input.Inv [] ⟨.empty input.config, []⟩ := by
  -- A table that is found is the shared one, and it is empty.
  have htable : ∀ shape t, (empty input.config).objects.table? shape = some t →
      t = .empty ObjectTables.sharedLabel input.config.checkDivergence ∧
        input.config.partitionedTables = false := by
    intro shape t ht
    cases hp : input.config.partitionedTables with
    | true => simp [empty, ObjectTables.empty, hp, ObjectTables.table?] at ht
    | false =>
        have hshared : (ObjectTables.empty false input.config.checkDivergence).table? shape =
            some (.empty ObjectTables.sharedLabel input.config.checkDivergence) := by
          simp [ObjectTables.empty, ObjectTables.table?, ObjectTables.holds]
        simp only [empty, hp, hshared, Option.some.injEq] at ht
        exact ⟨ht.symm, rfl⟩
  have hobject : ∀ shape id, ¬ (empty input.config).HasObject shape id := by
    rintro shape id ⟨t, ht, hid⟩
    rw [(htable shape t ht).1, UniqueTable.names_empty] at hid
    simp at hid
  have hfilled : Filled input.tree input.registry [] (empty input.config) := by
    refine ⟨UniqueTable.valid_empty _ _, fun x hx => ?_, UniqueTable.valid_empty _ _,
      ObjectTables.wellShaped_empty _ _, fun shape t ht => ?_, fun id hid => ?_,
      fun shape t ht id hid => ?_, fun hp shape t ht => ?_, .seeded _ _, fun shape id _ hhas => ?_⟩
    · simp [empty, UniqueTable.names_empty] at hx
    · exact (htable shape t ht).1 ▸ UniqueTable.valid_empty _ _
    · simp [empty, UniqueTable.names_empty] at hid
    · exact absurd ⟨t, ht, hid⟩ (hobject shape id)
    · simp [empty, ObjectTables.empty, (htable shape t ht).2] at hp
    · exact absurd hhas (hobject shape id)
  refine ⟨⟨⟨[], hfilled⟩, ⟨rfl, rfl, rfl, fun shape t ht => ?_⟩, fun id hid => ?_, fun shape t ht => ?_⟩,
    rfl, fun id => ?_, by simp, by simp, by simp, ?_⟩
  · rw [(htable shape t ht).1]
    rfl
  · simp [empty, UniqueTable.names_empty] at hid
  · intro id hid
    exact absurd ⟨t, ht, hid⟩ (hobject shape id)
  · have harrays : id ∉ (empty input.config).arrays.names := by
      simp [empty, UniqueTable.names_empty]
    simp [HasNode, hobject, harrays]
  · intro before id after h
    simp at h

/-- What the walk over a tree returns: a module that holds the root, and its nodes, each
complete and behind the nodes it leads to. -/
structure Walked (input : WalkInput) (m : Module) (postOrder : List NodeId) : Prop where
  gathered : m.Gathered input.tree input.registry
  partitioned : m.objects.partitioned = input.config.partitionedTables
  root_eq : m.root = input.tree.root
  root : m.Holds input.tree input.registry input.tree.root
  mem_iff : ∀ id, id ∈ postOrder ↔ m.HasNode input.tree input.registry id
  nodup : postOrder.Nodup
  inUse : ∀ id ∈ postOrder, input.tree.InUse input.registry id
  complete : ∀ id ∈ postOrder, input.Complete m id
  ordered : input.Ordered postOrder.reverse

/-- A walk that succeeds has walked the root from an empty module, and that is all that there is to
the nodes it returns. -/
theorem walked_of_walk (hr : input.registry.Valid) {postOrder : List NodeId}
    (h : input.walk = .ok (m, postOrder)) : input.Walked m postOrder := by
  obtain ⟨s, hs, h₁⟩ := bind_eq_ok.mp h
  simp only [Except.ok.injEq, Prod.mk.injEq] at h₁
  obtain ⟨rfl, rfl⟩ := h₁
  obtain ⟨hinv, -, hroot⟩ := walks_visit hr (input.tree.size + 1) (by simp) _ _ _ hs
    (inv_empty input) fun id hid => ⟨⟨id, hid, .refl⟩, by simp⟩
  obtain ⟨shapes, hf⟩ := hinv.gathered.filled
  refine ⟨⟨⟨shapes, { hf with }⟩, { hinv.gathered.building with }, { hinv.gathered.unmerged with }⟩,
    hinv.partitioned, rfl, ?_, fun id => ?_, ?_, fun id hid => ?_, fun id hid => ?_, ?_⟩
  · exact Extends.holds ⟨fun _ h => h, fun _ h => h, fun _ _ h => h, rfl⟩ hroot
  · have hiff := (hinv.hasNode_iff id).symm
    simp only [List.not_mem_nil, false_or] at hiff
    exact List.mem_reverse.trans hiff
  · exact List.nodup_reverse.mpr (by simpa using hinv.nodup)
  · exact hinv.inUse id (by simpa using hid)
  · exact (hinv.complete id (List.mem_reverse.mp hid)).mono
      ⟨fun _ h => h, fun _ h => h, fun _ _ h => h, rfl⟩ rfl
  · rw [List.reverse_reverse]
    exact hinv.ordered

end WalkInput

end Module

end SyntaxPack
