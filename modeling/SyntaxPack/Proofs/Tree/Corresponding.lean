import SyntaxPack.Proofs.Encode.Visits
import SyntaxPack.Proofs.Tree.Matching
/-!
# SyntaxPack.Proofs.Tree.Corresponding

Trees that the encoder cannot tell apart.

What the encoder sees of a node are its kind, its shape and its slots. Where related nodes
agree on these, slot by slot up to the relation, everything else agrees as well: the tags
of values, the element tags of arrays, the checks of the walk, and the order in which the
unfolded trees are walked.
-/

namespace SyntaxPack

namespace Tree

variable {a b : Tree} {registry : Registry} {rel : NodeId → NodeId → Prop} {x y : NodeId}
  {left right : Value}

/-- Two nodes look the same to the encoder, up to the nodes that their slots refer to. -/
inductive SameSlots (a b : Tree) (registry : Registry) (rel : NodeId → NodeId → Prop)
    (x y : NodeId) : Prop
  | array {elements others : List Value} (hx : a.array? x = some elements)
      (hy : b.array? y = some others) (slots : List.Forall₂ (Alike rel) elements others)
  | object {shape : ShapeId} (hx : a.shape? registry x = some shape)
      (hy : b.shape? registry y = some shape)
      (slots : List.Forall₂ (Alike rel) (a.slots registry x) (b.slots registry y))

/-- All related nodes look the same. -/
def Corresponding (a b : Tree) (registry : Registry) (rel : NodeId → NodeId → Prop) : Prop :=
  ∀ x y, rel x y → SameSlots a b registry rel x y

theorem Alike.flip (h : Alike rel left right) : Alike (flip rel) right left := by
  cases h with
  | plain hnode => exact .plain hnode
  | array hxy => exact .array hxy
  | object hxy => exact .object hxy

theorem Alike.node (h : Alike rel left right) (hx : left.node? = some x) :
    ∃ y, right.node? = some y ∧ rel x y := by
  cases h with
  | plain hnode => simp [hnode] at hx
  | array hxy | object hxy =>
      obtain rfl := Option.some.inj hx
      exact ⟨_, rfl, hxy⟩

theorem Alike.restrict {p : NodeId → Prop} (h : Alike rel left right)
    (hp : ∀ y, right.node? = some y → p y) : Alike (fun x y => rel x y ∧ p y) left right := by
  cases h with
  | plain hnode => exact .plain hnode
  | array hxy => exact .array ⟨hxy, hp _ rfl⟩
  | object hxy => exact .object ⟨hxy, hp _ rfl⟩

theorem alike_flip {values others : List Value} (h : List.Forall₂ (Alike rel) values others) :
    List.Forall₂ (Alike (flip rel)) others values :=
  h.flip.imp fun _ _ halike => Alike.flip halike

namespace SameSlots

theorem flip (h : SameSlots a b registry rel x y) : SameSlots b a registry (flip rel) y x := by
  cases h with
  | array hx hy hslots => exact .array hy hx (alike_flip hslots)
  | object hx hy hslots => exact .object hy hx (alike_flip hslots)

theorem slots (h : SameSlots a b registry rel x y) :
    List.Forall₂ (Alike rel) (a.slots registry x) (b.slots registry y) := by
  cases h with
  | array hx hy hslots => rwa [slots_of_array hx, slots_of_array hy]
  | object _ _ hslots => exact hslots

theorem of_array (h : SameSlots a b registry rel x y) {elements : List Value}
    (hx : a.array? x = some elements) :
    ∃ others, b.array? y = some others ∧ List.Forall₂ (Alike rel) elements others := by
  cases h with
  | array hfound hy hslots =>
      obtain rfl := Option.some.inj (hfound.symm.trans hx)
      exact ⟨_, hy, hslots⟩
  | object hshape _ _ =>
      obtain ⟨object, hobject, -⟩ := shape?_eq_some_iff.mp hshape
      simp [array?_eq_none_of_object hobject] at hx

/-- Objects that look the same have one shape, and their declared fields are alike. -/
theorem of_object (h : SameSlots a b registry rel x y) {object : Object}
    (hy : b.object? y = some object) : ∃ other shape, a.object? x = some other ∧
      other.shape = object.shape ∧ registry.lookup object.shape = some shape ∧
      ∀ field ∈ registry.fields shape, Alike rel (other.get field.name) (object.get field.name) := by
  cases h with
  | array _ harray _ => simp [array?_eq_none_of_object hy] at harray
  | object hx hshape hslots =>
      obtain ⟨other, hother, hlookup⟩ := shape?_eq_some_iff.mp hx
      obtain ⟨found, hfound, hlookup'⟩ := shape?_eq_some_iff.mp hshape
      obtain rfl := Option.some.inj (hfound.symm.trans hy)
      rw [slots_of_object hother hlookup, slots_of_object hy hlookup'] at hslots
      have hname := (Registry.lookup_eq_some hlookup).2.symm.trans (Registry.lookup_eq_some hlookup').2
      exact ⟨other, _, hother, hname, hlookup', List.forall₂_same.mp
        (List.forall₂_map_left_iff.mp (List.forall₂_map_right_iff.mp hslots))⟩

theorem shape?_eq (h : SameSlots a b registry rel x y) :
    b.shape? registry y = a.shape? registry x := by
  cases h with
  | array hx hy _ =>
      have hx : a.shape? registry x = none := shape?_eq_none_of_array (by rw [hx]; rfl)
      have hy : b.shape? registry y = none := shape?_eq_none_of_array (by rw [hy]; rfl)
      rw [hx, hy]
  | object hx hy _ => rw [hx, hy]

theorem isSome_array?_eq (h : SameSlots a b registry rel x y) :
    (b.array? y).isSome = (a.array? x).isSome := by
  cases h with
  | array hx hy _ => rw [hx, hy, Option.isSome_some, Option.isSome_some]
  | object hx hy _ =>
      obtain ⟨object, hobject, -⟩ := shape?_eq_some_iff.mp hx
      obtain ⟨other, hother, -⟩ := shape?_eq_some_iff.mp hy
      rw [array?_eq_none_of_object hobject, array?_eq_none_of_object hother]

end SameSlots

/-- Nodes look the same up to any relation under which their slots are alike. -/
theorem SameSlots.imp_of_mem {rel' : NodeId → NodeId → Prop} (h : SameSlots a b registry rel x y)
    (himp : ∀ left ∈ a.slots registry x, ∀ right ∈ b.slots registry y,
      Alike rel left right → Alike rel' left right) : SameSlots a b registry rel' x y := by
  cases h with
  | array hx hy hslots =>
      rw [slots_of_array hx, slots_of_array hy] at himp
      exact .array hx hy (forall₂_imp_of_mem hslots himp)
  | object hx hy hslots => exact .object hx hy (forall₂_imp_of_mem hslots himp)

/-! ### Composition -/

section Comp

variable {c : Tree} {rel' : NodeId → NodeId → Prop} {z : NodeId} {other : Value}

theorem Alike.comp (h : Alike rel left right) (h' : Alike rel' right other) :
    Alike (Relation.Comp rel rel') left other := by
  cases h with
  | plain hnode =>
      cases h' with
      | plain hnode' => exact .plain hnode'
      | array hyz | object hyz => simp [Value.node?] at hnode
  | array hxy =>
      cases h' with
      | plain hnode' => simp [Value.node?] at hnode'
      | array hyz => exact .array ⟨_, hxy, hyz⟩
  | object hxy =>
      cases h' with
      | plain hnode' => simp [Value.node?] at hnode'
      | object hyz => exact .object ⟨_, hxy, hyz⟩

theorem alike_comp {values others more : List Value} (h : List.Forall₂ (Alike rel) values others)
    (h' : List.Forall₂ (Alike rel') others more) :
    List.Forall₂ (Alike (Relation.Comp rel rel')) values more := by
  induction h generalizing more with
  | nil =>
      cases h'
      exact .nil
  | cons hhead _ ih =>
      cases h' with
      | cons hhead' hrest => exact .cons (hhead.comp hhead') (ih hrest)

theorem SameSlots.comp (h : SameSlots a b registry rel x y) (h' : SameSlots b c registry rel' y z) :
    SameSlots a c registry (Relation.Comp rel rel') x z := by
  cases h with
  | array hx hy hslots =>
      obtain ⟨others, hz, hslots'⟩ := h'.of_array hy
      exact .array hx hz (alike_comp hslots hslots')
  | object hx hy hslots => exact .object hx (h'.shape?_eq.trans hy) (alike_comp hslots h'.slots)

theorem Corresponding.comp (h : Corresponding a b registry rel) (h' : Corresponding b c registry rel') :
    Corresponding a c registry (Relation.Comp rel rel') := by
  rintro x z ⟨y, hxy, hyz⟩
  exact (h x y hxy).comp (h' y z hyz)

end Comp

/-- Nodes that match look the same, if one of them is a node that can be encoded. -/
theorem Matched.sameSlots (h : Matched a b rel x y)
    (hx : (a.array? x).isSome = true ∨ ∃ shape, a.shape? registry x = some shape) :
    SameSlots a b registry rel x y := by
  rcases hx with harray | ⟨shape, hshape⟩
  · obtain ⟨elements, helements⟩ := Option.isSome_iff_exists.mp harray
    obtain ⟨others, hothers, hslots⟩ := h.slots_of_array helements
    exact .array helements hothers hslots
  · obtain ⟨hother, hslots⟩ := h.slots_of_shape hshape
    exact .object hshape hother hslots

/-! ### Undeclared fields -/

theorem SameSlots.matched_declaredOnly (h : SameSlots a b registry rel x y) :
    Matched (a.declaredOnly registry) (b.declaredOnly registry) rel x y := by
  cases h with
  | array hx hy hslots =>
      rw [← array?_declaredOnly] at hx hy
      exact matched_arrays hx hy hslots
  | object hx hy hslots =>
      rw [← shape?_declaredOnly] at hx hy
      rw [← slots_declaredOnly a, ← slots_declaredOnly b] at hslots
      exact matched_objects hx hy (onlyDeclared_declaredOnly a registry x)
        (onlyDeclared_declaredOnly b registry y) hslots

/-- The encoder does not see undeclared fields. -/
theorem SameSlots.of_declaredOnly
    (h : SameSlots (a.declaredOnly registry) (b.declaredOnly registry) registry rel x y) :
    SameSlots a b registry rel x y := by
  cases h with
  | array hx hy hslots =>
      rw [array?_declaredOnly] at hx hy
      exact .array hx hy hslots
  | object hx hy hslots =>
      rw [shape?_declaredOnly] at hx hy
      rw [slots_declaredOnly, slots_declaredOnly] at hslots
      exact .object hx hy hslots

namespace Corresponding

variable (h : Corresponding a b registry rel)
include h

/-- Values that are alike have one runtime tag. -/
theorem tag_of {tag : Tag} (halike : Alike rel left right)
    (htag : Tag.of a registry left = .ok tag) : Tag.of b registry right = .ok tag := by
  cases halike with
  | plain hnode =>
      cases left with
      | array id | object id => simp [Value.node?] at hnode
      | boolean flag => cases flag <;> exact htag
      | null | number _ | string _ => exact htag
  | array hxy => exact htag
  | object hxy =>
      obtain ⟨shape, hshape, rfl⟩ := Tag.of_object_eq_ok.mp htag
      exact Tag.of_object_eq_ok.mpr ⟨shape, (h _ _ hxy).shape?_eq.trans hshape, rfl⟩

/-- Lists of values that are alike have one list of runtime tags. -/
theorem tags_of {values others : List Value} {tags : List Tag}
    (halike : List.Forall₂ (Alike rel) values others)
    (htags : List.Forall₂ (fun value tag => Tag.of a registry value = .ok tag) values tags) :
    List.Forall₂ (fun value tag => Tag.of b registry value = .ok tag) others tags := by
  induction halike generalizing tags with
  | nil =>
      cases htags
      exact .nil
  | cons hhead _ ih =>
      cases htags with
      | cons htag hrest => exact .cons (h.tag_of hhead htag) (ih hrest)

/-- Related nodes look the same, too, if they have a property that goes down to their children. -/
theorem restrict {p : NodeId → Prop} (hp : ∀ y, p y → ∀ value ∈ b.slots registry y, ∀ child,
    value.node? = some child → p child) :
    Corresponding a b registry fun x y => rel x y ∧ p y := by
  intro x y hxy
  exact (h x y hxy.1).imp_of_mem fun left _ right hright hlr =>
    hlr.restrict fun child hchild => hp y hxy.2 right hright child hchild

/-- Trees unfolded from values that are alike are alike. -/
theorem preorder (depth : Nat) (halike : Alike rel left right) :
    List.Forall₂ (Alike rel) (Visits.preorder (a.slots registry) depth left)
      (Visits.preorder (b.slots registry) depth right) := by
  induction depth generalizing left right with
  | zero => exact .cons halike .nil
  | succ depth ih =>
      refine .cons halike (List.rel_flatMap ?_ fun _ _ hslots => ih hslots)
      cases halike with
      | plain hnode =>
          rw [hnode]
          exact .nil
      | array hxy | object hxy => exact (h _ _ hxy).slots

end Corresponding

end Tree

end SyntaxPack
