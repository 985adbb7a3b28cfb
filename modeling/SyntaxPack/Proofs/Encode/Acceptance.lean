import SyntaxPack.Proofs.Encode.Dedupable
/-!
# SyntaxPack.Proofs.Encode.Acceptance

Which trees have a module.

The walk goes into a node once and checks it there, but it looks at an array again through
every field that holds it, and some checks come before a node is gone into and some behind.
None of this can be seen from outside: a module is built of a tree whose slots lead to no
cycle exactly if the root and the nodes in use have certain properties, each for itself. The
tables never object to anything, and neither does deduplication, so the policies of a
configuration that are not about checks have no say in it. Nodes that are not in use have
none either.
-/

namespace SyntaxPack

namespace Tree

variable {tree other : Tree} {registry : Registry} {id child : NodeId} {value : Value}

/-- What a slot of a node in use leads to is in use. -/
theorem InUse.of_mem_slots (h : tree.InUse registry id) (hvalue : value ∈ tree.slots registry id) :
    ∀ child, value.node? = some child → tree.InUse registry child :=
  fun _ hchild => h.of_hasChild ⟨value, hvalue, hchild⟩

/-- Another tree has the same root, and every node that is in use is the same there. -/
structure SameInUse (tree other : Tree) (registry : Registry) : Prop where
  root : other.root = tree.root
  node? : ∀ id, tree.InUse registry id → other.node? id = tree.node? id

namespace SameInUse

variable (h : tree.SameInUse other registry)
include h

theorem slots (hid : tree.InUse registry id) : other.slots registry id = tree.slots registry id := by
  unfold Tree.slots
  rw [h.node? id hid]

theorem array? (hid : tree.InUse registry id) : other.array? id = tree.array? id := by
  unfold Tree.array?
  rw [h.node? id hid]

theorem object? (hid : tree.InUse registry id) : other.object? id = tree.object? id := by
  unfold Tree.object?
  rw [h.node? id hid]

theorem shape? (hid : tree.InUse registry id) : other.shape? registry id = tree.shape? registry id := by
  unfold Tree.shape?
  rw [h.object? hid]

/-- The slots of a node in use lead to the same nodes in both trees. -/
theorem hasChild (hid : tree.InUse registry id) (hchild : other.HasChild registry id child) :
    tree.HasChild registry id child := by
  obtain ⟨value, hvalue, hnode⟩ := hchild
  exact ⟨value, h.slots hid ▸ hvalue, hnode⟩

theorem inUse (hid : other.InUse registry id) : tree.InUse registry id := by
  obtain ⟨root, hroot, hpath⟩ := hid
  rw [h.root] at hroot
  induction hpath with
  | refl => exact ⟨root, hroot, .refl⟩
  | tail _ hstep ih => exact ih.of_hasChild (h.hasChild ih hstep)

theorem above (hid : tree.InUse registry id) (habove : other.Above registry id child) :
    tree.Above registry id child ∧ tree.InUse registry child := by
  induction habove with
  | single hstep =>
      have hchild := h.hasChild hid hstep
      exact ⟨.single hchild, hid.of_hasChild hchild⟩
  | tail _ hstep ih =>
      obtain ⟨hpath, hused⟩ := ih
      have hchild := h.hasChild hused hstep
      exact ⟨hpath.tail hchild, hused.of_hasChild hchild⟩

theorem symm : other.SameInUse tree registry where
  root := h.root.symm
  node? id hid := (h.node? id (h.inUse hid)).symm

/-- The runtime tag of a value that leads to nodes in use is the same in both trees. -/
theorem tag_of (hvalue : ∀ child, value.node? = some child → tree.InUse registry child) :
    Tag.of other registry value = Tag.of tree registry value := by
  match value, hvalue with
  | .null, _ | .boolean true, _ | .boolean false, _ | .number _, _ | .string _, _ | .array _, _ => rfl
  | .object id, hvalue =>
      have hrequire : other.requireObject id = tree.requireObject id := by
        unfold Tree.requireObject
        rw [h.object? (hvalue id rfl)]
      simp only [Tag.of, Tree.shapeOf, hrequire]

end SameInUse

end Tree

namespace Module

variable {description : RegistryDescription} {registry : Registry} {tree other : Tree}
  {config : EncodingConfig} {id : NodeId} {value : Value}

namespace WalkInput

variable {input : WalkInput}

/-- What a module is built of: all that the root leads to through array elements and declared
fields is there, and is as its shape and the configuration ask. -/
structure Acceptable (input : WalkInput) : Prop where
  /-- The root leads to a node of its kind. -/
  root : input.Leads input.tree.root
  /-- Elements and declared fields lead to nodes of their kinds. -/
  slots : ∀ id, input.tree.InUse input.registry id →
    ∀ value ∈ input.tree.slots input.registry id, input.Leads value
  /-- Objects have declared fields only, unless others are dropped. -/
  declared : input.config.ignoreUnknownFields = false →
    ∀ id object shape, input.tree.InUse input.registry id → input.tree.object? id = some object →
      input.registry.lookup object.shape = some shape →
      ∀ entry ∈ object.fields, ∃ field ∈ input.registry.fields shape, field.name = entry.1
  /-- The tag of a declared field is accepted by its declaration. -/
  fields : ∀ id object shape, input.tree.InUse input.registry id →
    input.tree.object? id = some object → input.registry.lookup object.shape = some shape →
    ∀ field ∈ input.registry.fields shape, input.Accepts field.type (object.get field.name)
  /-- The tags of the elements of an array are accepted by every field that holds the array. -/
  items : ∀ id object shape, input.tree.InUse input.registry id →
    input.tree.object? id = some object → input.registry.lookup object.shape = some shape →
    ∀ field ∈ input.registry.fields shape, ∀ element, field.type.element = some element →
      ∀ array elements, object.get field.name = .array array →
        input.tree.array? array = some elements → ∀ item ∈ elements, input.Accepts element item
  /-- The tags of the elements of an array have a tag in common, unless any do. -/
  unified : input.config.anyArrayFallback = false →
    ∀ id elements tags, input.tree.InUse input.registry id → input.tree.array? id = some elements →
      List.Forall₂ (fun value tag => input.tagOf value = .ok tag) elements tags →
      (Tag.unify tags).isSome = true

/-! ### What is acceptable passes

The properties are those that the walk checks, gathered for each node. With all of them no check
fails, and nothing else of the walk can. -/

/-- A node in use of an acceptable tree passes the checks of the walk. -/
theorem Acceptable.passes (h : input.Acceptable) (hid : input.tree.InUse input.registry id) :
    input.Passes id where
  slots := h.slots id hid
  array elements helements := by
    have hleads : ∀ value ∈ elements, input.Leads value := fun value hvalue =>
      h.slots id hid value ((Tree.slots_of_array helements).symm ▸ hvalue)
    obtain ⟨tags, htags⟩ := exists_forall₂ fun value hvalue => (hleads value hvalue).tag_ok
    obtain ⟨tag, htag⟩ := exists_elementTag_iff.mpr fun hstrict =>
      h.unified hstrict id elements tags hid helements htags
    exact ⟨tags, tag, htags, htag⟩
  object object shape hobject hlookup := by
    refine ⟨checkDeclared_eq_ok.mpr fun hstrict entry hentry => ?_, fun field hfield => ?_⟩
    · obtain ⟨field, hfield, hname⟩ := h.declared hstrict id object shape hid hobject hlookup entry hentry
      exact List.any_eq_true.mpr ⟨field, hfield, by simpa using hname⟩
    refine checkField_eq_ok.mpr ⟨h.fields id object shape hid hobject hlookup field hfield, ?_⟩
    intro element helement array hvalue
    have hslot : object.get field.name ∈ input.tree.slots input.registry id := by
      rw [Tree.slots_of_object hobject hlookup]
      exact List.mem_map_of_mem hfield
    have hleads := h.slots id hid _ hslot
    rw [hvalue] at hleads
    obtain ⟨elements, helements⟩ := Option.isSome_iff_exists.mp hleads
    exact ⟨elements, helements, h.items id object shape hid hobject hlookup field hfield element helement
      array elements hvalue helements⟩

/-- A module is built of an acceptable tree. -/
theorem Acceptable.build_ok (h : (⟨tree, registry, config⟩ : WalkInput).Acceptable) (hr : registry.Valid)
    (hacyclic : ∀ id, tree.InUse registry id → ¬ tree.Above registry id id) :
    ∃ m, Module.build tree registry config = .ok m := by
  obtain ⟨⟨m, postOrder⟩, hwalk⟩ := walk_ok hr h.root fun _ => h.passes
  unfold Module.build
  rw [hwalk, ok_bind]
  obtain ⟨w, rfl, rfl⟩ := exists_trace hr hwalk
  obtain ⟨m', hm'⟩ := w.dedupe_ok hacyclic config.dedupeMinUses
  cases config.dedupe with
  | true => exact ⟨_, bind_eq_ok.mpr ⟨m', hm', rfl⟩⟩
  | false => exact ⟨_, rfl⟩

/-! ### What was walked is acceptable

The other way round, the walk has gone into every node in use, and what it has checked there is what
the properties say. -/

theorem leads_of_holds {m : Module} (h : m.Holds input.tree input.registry value) : input.Leads value := by
  match value, h with
  | .null, _ | .boolean _, _ | .number _, _ | .string _, _ => trivial
  | .array _, h => exact h.1
  | .object _, h =>
      obtain ⟨shape, hshape, -⟩ := h
      exact Option.isSome_iff_exists.mpr ⟨shape, hshape⟩

/-- A walk goes into all nodes in use. -/
theorem Walked.mem_of_inUse {m : Module} {postOrder : List NodeId} (h : input.Walked m postOrder)
    (hid : input.tree.InUse input.registry id) : id ∈ postOrder := by
  obtain ⟨root, hroot, hpath⟩ := hid
  induction hpath with
  | refl => exact (h.mem_iff root).mpr (h.root.hasNode hroot)
  | tail _ hstep ih =>
      obtain ⟨value, hvalue, hchild⟩ := hstep
      exact (h.mem_iff _).mpr (((h.complete _ ih).slots value hvalue).hasNode hchild)

theorem Walked.acceptable {m : Module} {postOrder : List NodeId} (h : input.Walked m postOrder) :
    input.Acceptable where
  root := leads_of_holds h.root
  slots id hid value hvalue := leads_of_holds ((h.complete id (h.mem_of_inUse hid)).slots value hvalue)
  declared hstrict id object shape hid hobject hlookup entry hentry := by
    have hcheck := ((h.complete id (h.mem_of_inUse hid)).object object shape hobject hlookup).1
    have hdeclares := checkDeclared_eq_ok.mp hcheck hstrict entry hentry
    simpa [Shape.declares] using hdeclares
  fields id object shape hid hobject hlookup field hfield := by
    have hchecks := ((h.complete id (h.mem_of_inUse hid)).object object shape hobject hlookup).2
    exact (checkField_eq_ok.mp (hchecks field hfield)).1
  items id object shape hid hobject hlookup field hfield element helement array elements hvalue helements := by
    have hchecks := ((h.complete id (h.mem_of_inUse hid)).object object shape hobject hlookup).2
    obtain ⟨others, hothers, hall⟩ :=
      (checkField_eq_ok.mp (hchecks field hfield)).2 element helement array hvalue
    obtain rfl : elements = others := Option.some.inj (helements.symm.trans hothers)
    exact hall
  unified hstrict id elements tags hid helements htags := by
    obtain ⟨others, tag, hothers, htag, -⟩ := (h.complete id (h.mem_of_inUse hid)).array elements helements
    obtain rfl := tags_unique htags hothers
    exact exists_elementTag_iff.mp ⟨tag, htag⟩ hstrict

end WalkInput

/-! ### Nodes that are not in use

All properties speak of nodes in use and of where their slots lead, so they are the same for trees
that have these nodes in common. -/

theorem WalkInput.Leads.of_sameInUse (h : tree.SameInUse other registry)
    (hvalue : ∀ child, value.node? = some child → tree.InUse registry child)
    (hleads : (⟨tree, registry, config⟩ : WalkInput).Leads value) :
    (⟨other, registry, config⟩ : WalkInput).Leads value := by
  match value, hvalue, hleads with
  | .null, _, _ | .boolean _, _, _ | .number _, _, _ | .string _, _, _ => trivial
  | .array id, hvalue, hleads =>
      show (other.array? id).isSome = true
      rw [h.array? (hvalue id rfl)]
      exact hleads
  | .object id, hvalue, hleads =>
      show (other.shape? registry id).isSome = true
      rw [h.shape? (hvalue id rfl)]
      exact hleads

theorem WalkInput.Accepts.of_sameInUse (h : tree.SameInUse other registry) {declared : TypeDecl}
    (hvalue : ∀ child, value.node? = some child → tree.InUse registry child)
    (haccepts : (⟨tree, registry, config⟩ : WalkInput).Accepts declared value) :
    (⟨other, registry, config⟩ : WalkInput).Accepts declared value := by
  obtain ⟨tag, htag, haccepts⟩ := haccepts
  exact ⟨tag, (h.tag_of hvalue).trans htag, haccepts⟩

/-- Whether a tree is acceptable is up to its nodes in use. -/
theorem WalkInput.Acceptable.of_sameInUse (h : tree.SameInUse other registry)
    (haccept : (⟨tree, registry, config⟩ : WalkInput).Acceptable) :
    (⟨other, registry, config⟩ : WalkInput).Acceptable where
  root := by
    show WalkInput.Leads _ other.root
    rw [h.root]
    exact haccept.root.of_sameInUse h fun child hchild => ⟨child, hchild, .refl⟩
  slots id hid value hvalue := by
    have hused := h.inUse hid
    rw [h.slots hused] at hvalue
    exact (haccept.slots id hused value hvalue).of_sameInUse h (hused.of_mem_slots hvalue)
  declared hstrict id object shape hid hobject :=
    haccept.declared hstrict id object shape (h.inUse hid) (h.object? (h.inUse hid) ▸ hobject)
  fields id object shape hid hobject hlookup field hfield := by
    have hused := h.inUse hid
    rw [h.object? hused] at hobject
    refine (haccept.fields id object shape hused hobject hlookup field hfield).of_sameInUse h
      (hused.of_mem_slots ?_)
    rw [Tree.slots_of_object hobject hlookup]
    exact List.mem_map_of_mem hfield
  items id object shape hid hobject hlookup field hfield element helement array elements hvalue helements
      item hitem := by
    have hused := h.inUse hid
    rw [h.object? hused] at hobject
    -- the array that the field holds is in use too, so its elements are
    have harray : tree.InUse registry array := by
      refine hused.of_mem_slots ?_ array (show (Value.array array).node? = some array from rfl)
      rw [Tree.slots_of_object hobject hlookup, ← hvalue]
      exact List.mem_map_of_mem hfield
    rw [h.array? harray] at helements
    exact (haccept.items id object shape hused hobject hlookup field hfield element helement array elements
      hvalue helements item hitem).of_sameInUse h
        (harray.of_mem_slots ((Tree.slots_of_array helements).symm ▸ hitem))
  unified hstrict id elements tags hid helements htags := by
    have hused := h.inUse hid
    rw [h.array? hused] at helements
    obtain ⟨hlength, htagged⟩ := List.forall₂_iff_zip.mp htags
    refine haccept.unified hstrict id elements tags hused helements
      (List.forall₂_iff_zip.mpr ⟨hlength, fun {value _} hpair => ?_⟩)
    have hslot : value ∈ tree.slots registry id := by
      rw [Tree.slots_of_array helements]
      exact (List.of_mem_zip hpair).1
    exact (h.tag_of (hused.of_mem_slots hslot)).symm.trans (htagged hpair)

/-! ### Acceptance -/

/-- A module is built of a tree without cycles exactly if the tree is acceptable, and what is not
in use makes no difference to that. -/
theorem exists_build_iff (hbuild : description.build = .ok registry)
    (hacyclic : ∀ id, tree.InUse registry id → ¬ tree.Above registry id id) :
    ((∃ m, Module.build tree registry config = .ok m) ↔
        (⟨tree, registry, config⟩ : WalkInput).Acceptable) ∧
      ∀ other, tree.SameInUse other registry →
        ((∃ m, Module.build other registry config = .ok m) ↔
          ∃ m, Module.build tree registry config = .ok m) := by
  have hr := RegistryDescription.valid_of_build hbuild
  have haccept : ∀ tree : Tree, (∀ id, tree.InUse registry id → ¬ tree.Above registry id id) →
      ((∃ m, Module.build tree registry config = .ok m) ↔
        (⟨tree, registry, config⟩ : WalkInput).Acceptable) := by
    intro tree hacyclic
    constructor
    · intro hok
      obtain ⟨m, hm⟩ := hok
      obtain ⟨⟨walked, postOrder⟩, hwalk, -⟩ := bind_eq_ok.mp hm
      exact (WalkInput.walked_of_walk hr hwalk).acceptable
    · intro h
      exact h.build_ok hr hacyclic
  refine ⟨haccept tree hacyclic, ?_⟩
  intro other hother
  have hacyclic' : ∀ id, other.InUse registry id → ¬ other.Above registry id id := fun id hid habove =>
    hacyclic id (hother.inUse hid) (hother.above (hother.inUse hid) habove).1
  rw [haccept other hacyclic', haccept tree hacyclic]
  exact ⟨fun h => h.of_sameInUse hother.symm, fun h => h.of_sameInUse hother⟩

/-- Two pairs are acceptable, whatever else the tree holds. -/
theorem pairs_acceptable : RegistryDescription.pairs.build = .ok .pairs ∧
    (∀ id, Tree.pairs.InUse .pairs id → ¬ Tree.pairs.Above .pairs id id) ∧
    (⟨.pairs, .pairs, {}⟩ : WalkInput).Acceptable ∧
    ∀ other, Tree.pairs.SameInUse other .pairs → ∃ m, Module.build other .pairs {} = .ok m := by
  have hsome : (Module.build .pairs .pairs {}).toOption.isSome = true := by decide +kernel
  obtain ⟨m, hm⟩ := Option.isSome_iff_exists.mp hsome
  have hacyclic := @Tree.not_above_of_acyclic .pairs .pairs fun id _ => Tree.pairs_acyclic id
  obtain ⟨haccept, hothers⟩ := exists_build_iff Registry.build_pairs hacyclic
  have hbuild := eq_ok_of_toOption hm
  exact ⟨Registry.build_pairs, hacyclic, haccept.mp ⟨m, hbuild⟩, fun other h => (hothers other h).mpr ⟨m, hbuild⟩⟩

end Module

end SyntaxPack
