import Mathlib.Data.List.MinMax
import Mathlib.Order.Nat
import SyntaxPack.Proofs.Encode.Survivors
import SyntaxPack.Proofs.Encode.Tokens
/-!
# SyntaxPack.Proofs.Encode.InPlace

Objects in place come to an end.

An object without an index is written where it is referred to, and what is written is not its own
fields but those of the object that survived for it. So the writer leaves the edges of the tree:
it goes from an object to a child, and from there to another member of the child's class
(`WriteInput.Encloses`). What it loses on each of these steps is height. A child is lower than its
parent, and nodes of one class are of one height, since they look the same and so do their
children.

The bound on the depth of the writer is therefore never met. Its recursion is the one without a
bound, which has no other solution.
-/

namespace SyntaxPack

theorem mapM_congr {ε α β : Type} {f g : α → Except ε β} {xs : List α} (h : ∀ x ∈ xs, f x = g x) :
    xs.mapM f = xs.mapM g := by
  induction xs with
  | nil => rfl
  | cons x xs ih =>
      rw [List.mapM_cons, List.mapM_cons, h x List.mem_cons_self,
        ih fun y hy => h y (List.mem_cons_of_mem x hy)]

/-! ### Heights

The height is computed with a bound, as the model has no other way to recurse through an arena. On
nodes that are numbered so that children come first, a bound of the number is enough, and the height
satisfies the equation that one would define it by. -/

namespace Tree

variable (tree : Tree) (registry : Registry)

/-- The number of steps on the longest way down from a node, up to a bound. -/
def heightWithin : Nat → NodeId → Nat
  | 0, _ => 0
  | depth + 1, id => ((tree.slots registry id).map fun value =>
      value.node?.elim 0 fun child => heightWithin depth child + 1).foldr max 0

/-- The number of steps on the longest way down from a node that leads to no cycle. -/
def height (id : NodeId) : Nat := tree.heightWithin registry tree.size id

variable {tree registry}

/-- A bound on the steps bounds the height. -/
theorem heightWithin_le (depth : Nat) (id : NodeId) : tree.heightWithin registry depth id ≤ depth := by
  induction depth generalizing id with
  | zero => rw [heightWithin]
  | succ depth ih =>
      rw [heightWithin]
      refine List.max_le_of_forall_le _ _ fun n hn => ?_
      obtain ⟨value, -, rfl⟩ := List.mem_map.mp hn
      cases value.node? with
      | none => exact Nat.zero_le _
      | some child => exact Nat.succ_le_succ (ih child)

section Numbered

variable {known : NodeId → Prop} {rank : NodeId → Nat} {id child x y : NodeId}
  (h : Visits.Descends (tree.slots registry) known rank)
include h

/-- A bound that is no smaller than the number of a node makes no difference to its height. -/
theorem heightWithin_succ (hid : known id) {depth : Nat} (hdepth : rank id ≤ depth) :
    tree.heightWithin registry (depth + 1) id = tree.heightWithin registry depth id := by
  induction depth generalizing id with
  | zero =>
      -- there is no way down from a node with the smallest number
      have hnone : ∀ value ∈ tree.slots registry id, value.node? = none := by
        intro value hvalue
        cases hnode : value.node? with
        | none => rfl
        | some child =>
            have := h.child_lt id hid value hvalue child hnode
            omega
      rw [heightWithin, heightWithin]
      refine Nat.le_zero.mp (List.max_le_of_forall_le _ _ fun n hn => Nat.le_zero.mpr ?_)
      obtain ⟨value, hvalue, rfl⟩ := List.mem_map.mp hn
      rw [hnone value hvalue, Option.elim_none]
  | succ depth ih =>
      unfold heightWithin
      refine congrArg (List.foldr max 0) (List.map_congr_left fun value hvalue => ?_)
      cases hnode : value.node? with
      | none => rfl
      | some child =>
          have hlt := h.child_lt id hid value hvalue child hnode
          rw [Option.elim_some, Option.elim_some,
            ih (h.child_known id hid value hvalue child hnode) (by omega)]

variable (hsize : ∀ id, known id → rank id < tree.size)
include hsize

/-- A node is one step above the highest of its children. -/
theorem height_eq (hid : known id) : tree.height registry id =
    ((tree.slots registry id).map fun value =>
      value.node?.elim 0 fun child => tree.height registry child + 1).foldr max 0 := by
  rw [height, ← heightWithin_succ h hid (Nat.le_of_lt (hsize id hid)), heightWithin]
  rfl

/-- Children are lower than their parents. -/
theorem height_lt (hid : known id) (hchild : tree.HasChild registry id child) :
    tree.height registry child < tree.height registry id := by
  obtain ⟨value, hvalue, hnode⟩ := hchild
  rw [height_eq h hsize hid]
  refine List.le_max_of_le (List.mem_map.mpr ⟨value, hvalue, ?_⟩) (Nat.le_refl _)
  rw [hnode, Option.elim_some]

/-- If nodes of one number look the same, they are of one height. -/
theorem height_eq_of_alike (halike : ∀ x y, known x → known y → rank x = rank y →
      SameSlots tree tree registry (fun x y => rank x = rank y) x y)
    (hx : known x) (hy : known y) (heq : rank x = rank y) :
    tree.height registry x = tree.height registry y := by
  -- by induction on the common number: children that correspond have smaller ones
  induction hn : rank x using Nat.strong_induction_on generalizing x y with
  | _ n ih =>
      have hslots : SameSlots tree tree registry
          (fun x y => tree.height registry x = tree.height registry y) x y := by
        refine (halike x y hx hy heq).imp_of_mem fun left hleft right hright hlr => ?_
        have hchild : ∀ a b, left.node? = some a → right.node? = some b → rank a = rank b →
            tree.height registry a = tree.height registry b := fun a b ha hb hab =>
          ih (rank a) (hn ▸ h.child_lt x hx left hleft a ha)
            (h.child_known x hx left hleft a ha) (h.child_known y hy right hright b hb) hab rfl
        cases hlr with
        | plain hnode => exact .plain hnode
        | array hab => exact .array (hchild _ _ rfl rfl hab)
        | object hab => exact .object (hchild _ _ rfl rfl hab)
      rw [height_eq h hsize hx, height_eq h hsize hy]
      refine congrArg (List.foldr max 0) (map_eq_of_forall₂ hslots.slots fun left right hlr => ?_)
      cases hlr with
      | plain hnode => rfl
      | array heights | object heights =>
          rw [Value.node?, Value.node?, Option.elim_some, Option.elim_some, heights]

end Numbered

end Tree

namespace Module

namespace WriteInput

variable {input : WriteInput} {a b node : NodeId} {shape : ShapeId}
  {f g : ShapeId → NodeId → Except Error (List Token)}

/-- The fields of a node have those of an object of a shape in them: a slot refers to an object
without an index, and the object written for it is what its entry holds. -/
def Places (input : WriteInput) (a : NodeId) (shape : ShapeId) (b : NodeId) : Prop :=
  input.wire.inlineObjects = true ∧ ∃ node table handle,
    .object node ∈ input.tree.slots input.registry a ∧
    input.tree.shape? input.registry node = some shape ∧
    input.module.objects.table? shape = some table ∧ table.require node = .ok handle ∧
    (table.entry? handle).bind (·.index) = none ∧ (table.value? handle).getD node = b

/-- The fields of a node have those of an object in them. -/
def Encloses (input : WriteInput) (a b : NodeId) : Prop := ∃ shape, input.Places a shape b

/-! ### What the writer goes into

The fields of an object call for the fields of other objects, and only of those that `Places` lists.
So two programs for these that agree on the listed objects give the same fields. -/

/-- A slot calls for the fields of the object that it places, if it places one. -/
theorem objectSlot_congr (hnode : .object node ∈ input.tree.slots input.registry a)
    (h : ∀ shape b, input.Places a shape b → f shape b = g shape b) (expected : Option ShapeId)
    (site : Site) : input.objectSlot f expected site node = input.objectSlot g expected site node := by
  simp only [objectSlot]
  cases hshape : input.tree.shapeOf input.registry node with
  | error e => rfl
  | ok shape =>
      have hown := Tree.shapeOf_eq_ok.mp hshape
      simp only [ok_bind]
      split
      · rfl
      · split
        · rfl
        · rename_i table ht
          cases hrequire : table.require node with
          | error e => rfl
          | ok handle =>
              simp only [Except.mapError, ok_bind]
              split
              · rename_i hplace
                split
                · rfl
                · rename_i hindex
                  rw [h shape _ ⟨hplace, node, table, handle, hnode, hown, ht, hrequire, hindex, rfl⟩]
              · rfl

/-- A value under a tag calls for fields only if it is stored as an object. -/
theorem underTag_congr {value : Value} (hvalue : value ∈ input.tree.slots input.registry a)
    (h : ∀ shape b, input.Places a shape b → f shape b = g shape b) (tag : Tag) (nullable : Bool)
    (site : Site) : input.underTag f tag nullable site value = input.underTag g tag nullable site value := by
  cases value with
  | boolean b => cases b <;> rcases tag with (_ | _) | own <;> rfl
  | null | number _ | string _ | array _ => rcases tag with (_ | _) | own <;> rfl
  | object node =>
      have hslot := objectSlot_congr hvalue h
      rcases tag with (_ | _) | own
      case builtin.object => exact hslot none site
      case shape => exact hslot (some own) site
      all_goals rfl

theorem slot_congr {value : Value} (hvalue : value ∈ input.tree.slots input.registry a)
    (h : ∀ shape b, input.Places a shape b → f shape b = g shape b) (codec : Codec) (site : Site) :
    input.slot f codec site value = input.slot g codec site value := by
  cases codec with
  | fixed tag nullable => exact underTag_congr hvalue h tag nullable site
  | tagged decl =>
      simp only [slot, fun tag => underTag_congr hvalue h tag false site]

/-- The fields of an object depend on those that are written in them only. -/
theorem fieldSlots_congr (hshape : input.tree.shape? input.registry a = some shape)
    (h : ∀ shape b, input.Places a shape b → f shape b = g shape b) :
    input.fieldSlots f shape a = input.fieldSlots g shape a := by
  obtain ⟨object, hobject, hlookup⟩ := Tree.shape?_eq_some_iff.mp hshape
  have hslots := Tree.slots_of_object hobject hlookup
  have hfields : (input.registry.fields shape).mapM (fun field =>
        input.slot f (Codec.ofDecl field.type input.wire.partitionedTables)
          (.field (input.registry.shapeName shape) field.name) (object.get field.name)) =
      (input.registry.fields shape).mapM (fun field =>
        input.slot g (Codec.ofDecl field.type input.wire.partitionedTables)
          (.field (input.registry.shapeName shape) field.name) (object.get field.name)) :=
    mapM_congr fun field hfield => slot_congr (hslots ▸ List.mem_map_of_mem hfield) h _ _
  simp only [fieldSlots, Tree.requireObject_eq_ok.mpr hobject, ok_bind, hfields]

end WriteInput

variable {tree : Tree} {registry : Registry} {config : EncodingConfig} {input : WalkInput}
  {shapes : List ShapeId} {rank : NodeId → Nat} {m : Module} {id a b x y : NodeId} {shape : ShapeId}
  {description : RegistryDescription}

/-- Writing objects in place comes to an end. -/
structure EndsInPlace (input : WalkInput) (m : Module) : Prop where
  /-- A node is one step above the highest of its children. -/
  height_eq : ∀ id, m.HasNode input.tree input.registry id →
    input.tree.height input.registry id =
      ((input.tree.slots input.registry id).map fun value =>
        value.node?.elim 0 fun child => input.tree.height input.registry child + 1).foldr max 0
  /-- What survives for a node is as high as the node. -/
  height_repOf : ∀ id y, m.HasNode input.tree input.registry id →
    m.repOf input.tree input.registry id = some y →
    input.tree.height input.registry y = input.tree.height input.registry id
  /-- What the writer goes into is what survives for a child. -/
  enters : ∀ a b, m.HasNode input.tree input.registry a → (input.writer m).Encloses a b →
    ∃ child, input.tree.HasChild input.registry a child ∧
      m.repOf input.tree input.registry child = some b
  /-- The writer goes down. -/
  height_lt : ∀ a b, m.HasNode input.tree input.registry a → (input.writer m).Encloses a b →
    m.HasNode input.tree input.registry b ∧
      input.tree.height input.registry b < input.tree.height input.registry a
  /-- It never comes back to an object that it is in. -/
  no_return : ∀ id, m.HasNode input.tree input.registry id →
    ¬ Relation.TransGen (input.writer m).Encloses id id
  /-- Whatever way it goes, it comes to an end. -/
  acc : ∀ id, m.HasNode input.tree input.registry id →
    Acc (fun b a => (input.writer m).Encloses a b) id
  /-- The fields of an object depend on the fields of those that the writer goes into. -/
  depends : ∀ f g id shape, input.tree.shape? input.registry id = some shape →
    (∀ own b, (input.writer m).Places id own b → f own b = g own b) →
    (input.writer m).fieldSlots f shape id = (input.writer m).fieldSlots g shape id
  /-- The bound on the depth makes no difference. -/
  unbounded : ∀ id shape depth, m.HasNode input.tree input.registry id →
    input.tree.shape? input.registry id = some shape → input.tree.size < depth →
    (input.writer m).fieldsWithin depth shape id = (input.writer m).objectFields shape id
  /-- The recursion without a bound has the fields that are written as its only solution. -/
  solution : ∀ f, (∀ id shape, m.HasNode input.tree input.registry id →
      input.tree.shape? input.registry id = some shape →
      f shape id = (input.writer m).fieldSlots f shape id) ↔
    ∀ id shape, m.HasNode input.tree input.registry id →
      input.tree.shape? input.registry id = some shape →
      f shape id = (input.writer m).objectFields shape id
  /-- No object is found to be endless. -/
  not_endless : ∀ id shape node, m.HasNode input.tree input.registry id →
    input.tree.shape? input.registry id = some shape →
    (input.writer m).objectFields shape id ≠ .error (.encode (.endlessObject node))

namespace Located

variable (h : Located input shapes rank m)
include h

/-- What is written in place is what survives for a child. -/
theorem exists_of_places (ha : m.HasNode input.tree input.registry a)
    (hplaces : (input.writer m).Places a shape b) : ∃ child,
      input.tree.HasChild input.registry a child ∧ m.HasNode input.tree input.registry child ∧
      m.repOf input.tree input.registry child = some b ∧ m.HasNode input.tree input.registry b ∧
      input.tree.shape? input.registry b = some shape := by
  obtain ⟨-, node, table, handle, hslot, hshape, ht, hrequire, -, rfl⟩ := hplaces
  have hholds := (h.complete a ha).slots _ hslot
  obtain ⟨own, hown, hobject⟩ := hholds
  obtain rfl : shape = own := Option.some.inj (hshape.symm.trans hown)
  obtain ⟨t, entry, survivor, hfound⟩ := h.object hshape hobject
  obtain rfl : table = t := Option.some.inj (ht.symm.trans hfound.table)
  obtain rfl : handle = entry := Except.ok.inj (hrequire.symm.trans hfound.require)
  rw [hfound.value, Option.getD_some]
  exact ⟨node, ⟨_, hslot, rfl⟩, (hasNode_object_iff hshape).mpr hobject, hfound.repOf_eq hshape,
    hfound.hasNode, hfound.shape_eq⟩

variable (hranking : m.Ranking input.tree input.registry rank)
include hranking

theorem descends : Visits.Descends (input.tree.slots input.registry)
    (m.HasNode input.tree input.registry) rank where
  child_known id hid value hvalue _ hchild :=
    ((h.complete id hid).slots value hvalue).hasNode hchild
  child_lt := hranking.child_lt

/-- Nodes of one number are of one height. -/
theorem height_eq_of_rank_eq (hx : m.HasNode input.tree input.registry x)
    (hy : m.HasNode input.tree input.registry y) (heq : rank x = rank y) :
    input.tree.height input.registry x = input.tree.height input.registry y := by
  refine Tree.height_eq_of_alike (h.descends hranking) hranking.lt_size
    (fun x y hx hy heq => ?_) hx hy heq
  obtain ⟨key, hkey⟩ := exists_keyOf (h.complete x hx) hx
  exact sameSlots_of_keyOf_eq hkey ((hranking.alike x y hx hy heq).symm.trans hkey)

theorem height_repOf (hid : m.HasNode input.tree input.registry id)
    (hrep : m.repOf input.tree input.registry id = some y) :
    input.tree.height input.registry y = input.tree.height input.registry id := by
  obtain ⟨survivor, hsurvivor, hnode, hrank⟩ := h.rep id hid
  obtain rfl : y = survivor := Option.some.inj (hrep.symm.trans hsurvivor)
  exact h.height_eq_of_rank_eq hranking hnode hid hrank

/-- An object in place is lower than the one that it is in. -/
theorem height_lt_of_places (ha : m.HasNode input.tree input.registry a)
    (hplaces : (input.writer m).Places a shape b) : m.HasNode input.tree input.registry b ∧
      input.tree.height input.registry b < input.tree.height input.registry a := by
  obtain ⟨_, hchild, hnode, hrep, hb, -⟩ := h.exists_of_places ha hplaces
  refine ⟨hb, ?_⟩
  rw [h.height_repOf hranking hnode hrep]
  exact Tree.height_lt (h.descends hranking) hranking.lt_size ha hchild

theorem height_lt_of_transGen (ha : m.HasNode input.tree input.registry a)
    (hpath : Relation.TransGen (input.writer m).Encloses a b) :
    m.HasNode input.tree input.registry b ∧
      input.tree.height input.registry b < input.tree.height input.registry a := by
  induction hpath with
  | single hstep =>
      obtain ⟨shape, hplaces⟩ := hstep
      exact h.height_lt_of_places hranking ha hplaces
  | tail _ hstep ih =>
      obtain ⟨shape, hplaces⟩ := hstep
      obtain ⟨hc, hlt⟩ := h.height_lt_of_places hranking ih.1 hplaces
      exact ⟨hc, Nat.lt_trans hlt ih.2⟩

/-- Whatever way the writer goes from a node, it comes to an end: every step loses height. -/
theorem acc_encloses (hid : m.HasNode input.tree input.registry id) :
    Acc (fun b a => (input.writer m).Encloses a b) id := by
  induction hn : input.tree.height input.registry id using Nat.strong_induction_on generalizing id with
  | _ n ih =>
      refine .intro id fun b hstep => ?_
      obtain ⟨hb, hlt⟩ := h.height_lt_of_transGen hranking hid (.single hstep)
      exact ih _ (hn ▸ hlt) hb rfl

/-- A bound above the height of an object makes no difference to its fields. -/
theorem fieldsWithin_eq (hid : m.HasNode input.tree input.registry id)
    (hshape : input.tree.shape? input.registry id = some shape) {depth depth' : Nat}
    (hdepth : input.tree.height input.registry id < depth)
    (hdepth' : input.tree.height input.registry id < depth') :
    (input.writer m).fieldsWithin depth shape id = (input.writer m).fieldsWithin depth' shape id := by
  induction depth generalizing id shape depth' with
  | zero => omega
  | succ depth ih =>
      cases depth' with
      | zero => omega
      | succ depth' =>
          refine WriteInput.fieldSlots_congr hshape fun own b hplaces => ?_
          obtain ⟨-, -, -, -, hb, hown⟩ := h.exists_of_places hid hplaces
          have hlt := (h.height_lt_of_places hranking hid hplaces).2
          exact ih hb hown (by omega) (by omega)

theorem fieldsWithin_eq_objectFields (hid : m.HasNode input.tree input.registry id)
    (hshape : input.tree.shape? input.registry id = some shape) {depth : Nat}
    (hdepth : input.tree.size < depth) :
    (input.writer m).fieldsWithin depth shape id = (input.writer m).objectFields shape id := by
  have hle : input.tree.height input.registry id ≤ input.tree.size := Tree.heightWithin_le _ _
  exact h.fieldsWithin_eq hranking hid hshape (by omega) (Nat.lt_succ_of_le hle)

/-- The fields that are written solve the recursion without a bound. -/
theorem objectFields_eq (hid : m.HasNode input.tree input.registry id)
    (hshape : input.tree.shape? input.registry id = some shape) :
    (input.writer m).objectFields shape id =
      (input.writer m).fieldSlots (input.writer m).objectFields shape id :=
  (h.fieldsWithin_eq_objectFields hranking hid hshape
    (Nat.lt_succ_of_lt (Nat.lt_succ_self input.tree.size))).symm

/-- They are its only solution. -/
theorem eq_objectFields {f : ShapeId → NodeId → Except Error (List Token)}
    (hf : ∀ id shape, m.HasNode input.tree input.registry id →
      input.tree.shape? input.registry id = some shape →
      f shape id = (input.writer m).fieldSlots f shape id)
    (hid : m.HasNode input.tree input.registry id)
    (hshape : input.tree.shape? input.registry id = some shape) :
    f shape id = (input.writer m).objectFields shape id := by
  induction hn : input.tree.height input.registry id using Nat.strong_induction_on
      generalizing id shape with
  | _ n ih =>
      rw [hf id shape hid hshape, h.objectFields_eq hranking hid hshape]
      refine WriteInput.fieldSlots_congr hshape fun own b hplaces => ?_
      obtain ⟨-, -, -, -, hb, hown⟩ := h.exists_of_places hid hplaces
      exact ih _ (hn ▸ (h.height_lt_of_places hranking hid hplaces).2) hb hown rfl

theorem endsInPlace (hr : input.registry.Valid) : EndsInPlace input m where
  height_eq _ := Tree.height_eq (h.descends hranking) hranking.lt_size
  height_repOf id y := h.height_repOf hranking
  enters a b ha hencloses := by
    obtain ⟨shape, hplaces⟩ := hencloses
    obtain ⟨child, hchild, -, hrep, -⟩ := h.exists_of_places ha hplaces
    exact ⟨child, hchild, hrep⟩
  height_lt a b ha hencloses := h.height_lt_of_transGen hranking ha (.single hencloses)
  no_return id hid hpath := Nat.lt_irrefl _ (h.height_lt_of_transGen hranking hid hpath).2
  acc id := h.acc_encloses hranking
  depends f g id shape hshape hplaces := WriteInput.fieldSlots_congr hshape hplaces
  unbounded id shape depth hid hshape := h.fieldsWithin_eq_objectFields hranking hid hshape
  solution f := by
    constructor
    · intro hf id shape
      exact h.eq_objectFields hranking hf
    · intro hf id shape hid hshape
      rw [hf id shape hid hshape, h.objectFields_eq hranking hid hshape]
      refine WriteInput.fieldSlots_congr hshape fun own b hplaces => ?_
      obtain ⟨-, -, -, -, hb, hown⟩ := h.exists_of_places hid hplaces
      exact (hf b own hb hown).symm
  not_endless id shape node hid hshape herror := by
    have hbuilt : Built input shapes rank m := ⟨h, fun _ => hranking⟩
    cases (hbuilt.writes_objectFields hr hid hshape).error _ herror

end Located

/-- Whatever is written in place of a tree without a cycle among the nodes in use, writing it
comes to an end. -/
theorem endsInPlace_of_build (hregistry : description.build = .ok registry)
    (hacyclic : ∀ id, tree.InUse registry id → ¬ tree.Above registry id id)
    (h : Module.build tree registry config = .ok m) : EndsInPlace ⟨tree, registry, config⟩ m := by
  have hr := RegistryDescription.valid_of_build hregistry
  obtain ⟨shapes, rank, hlocated, -, hranking⟩ := located_of_build hr h
  exact hlocated.endsInPlace (hranking (Or.inl hacyclic)) hr

/-- The first copy is written for the second one. Both are one step high. -/
theorem copiedPairs_endInPlace : RegistryDescription.pairs.build = .ok .pairs ∧
    (∀ id, Tree.copiedPairs.InUse .pairs id → ¬ Tree.copiedPairs.Above .pairs id id) ∧
    ∃ m, Module.build .copiedPairs .pairs
        { inlineObjects := true, inlineThreshold := 2, dedupe := true } = .ok m ∧
      m.objects.tables.map (·.table.keys) = [[]] ∧ m.repOf .copiedPairs .pairs ⟨3⟩ = some ⟨1⟩ ∧
      Tree.copiedPairs.height .pairs ⟨3⟩ = 1 ∧
      EndsInPlace ⟨.copiedPairs, .pairs,
        { inlineObjects := true, inlineThreshold := 2, dedupe := true }⟩ m := by
  have hacyclic := @Tree.not_above_of_acyclic .copiedPairs .pairs
    fun id _ => Tree.copiedPairs_acyclic id
  have hresult : (Module.build .copiedPairs .pairs
      { inlineObjects := true, inlineThreshold := 2, dedupe := true }).toOption.map (fun m =>
        (m.objects.tables.map (·.table.keys), m.repOf .copiedPairs .pairs ⟨3⟩)) =
      some ([[]], some ⟨1⟩) := by decide +kernel
  obtain ⟨m, hm, hfound⟩ := Option.map_eq_some_iff.mp hresult
  have hbuild := eq_ok_of_toOption hm
  rw [Prod.mk.injEq] at hfound
  exact ⟨Registry.build_pairs, hacyclic, m, hbuild, hfound.1, hfound.2, by decide +kernel,
    endsInPlace_of_build Registry.build_pairs hacyclic hbuild⟩

end Module

end SyntaxPack
