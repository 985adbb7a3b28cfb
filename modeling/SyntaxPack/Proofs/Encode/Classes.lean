import SyntaxPack.Module.Dedupe
import SyntaxPack.Proofs.Encode.Nodes
/-!
# SyntaxPack.Proofs.Encode.Classes

The classes of structurally equal nodes.

`keyOf number id` is what a node looks like when each of its children is replaced by
the number that `number` gives it. The classes of a module give such numbers: two
nodes have one number if and only if they look the same, and the children of a node
have smaller numbers than the node itself.

Nodes are classified in the order in which the walk left them, children first. The invariant is
`Classified`: every node that is done is in the class of its key. Its key is taken with the present
classes, and these grow, so it has to be shown that keys do not change (`Classified.keyOf_insert`).
They do not, because the children of a node that is done are done as well, and a node that is done
keeps its class.

No tree has to be free of cycles here. On a cycle some node comes before one of its children, and
then classifying fails; that it succeeded is the only hypothesis.
-/

namespace SyntaxPack

namespace Module

variable {tree : Tree} {registry : Registry} {m : Module} {id : NodeId}

/-- A value with its node replaced by a number. Of strings and numbers the value itself stays. -/
def atomOf (number : NodeId → Nat) : Value → Atom
  | .null => .null
  | .boolean value => .boolean value
  | .number value => .number value
  | .string value => .string value
  | .array child => .array (number child)
  | .object child => .object (number child)

/-- A node with its children replaced by numbers, if it is an array with an element
tag or an object of a registered shape. -/
def keyOf (m : Module) (tree : Tree) (registry : Registry) (number : NodeId → Nat)
    (id : NodeId) : Option ClassKey :=
  match tree.node? id with
  | some (.array elements) =>
    (m.elementTag? id).map fun tag => .array tag (elements.map (atomOf number))
  | some (.object object) => (registry.lookup object.shape).map fun shape =>
    .object shape ((Tree.declaredValues registry shape object).map (atomOf number))
  | none => none

/-- The atoms of a key. -/
def ClassKey.atoms : ClassKey → List Atom
  | object _ fields => fields
  | array _ elements => elements

/-- The number in an atom, if it stands for a node. -/
def Atom.number? : Atom → Option Nat
  | array n | object n => some n
  | _ => none

theorem number?_atomOf (number : NodeId → Nat) (value : Value) :
    (atomOf number value).number? = value.node?.map number := by
  cases value <;> rfl

theorem atomOf_congr {f g : NodeId → Nat} {value : Value}
    (h : ∀ child, value.node? = some child → f child = g child) : atomOf f value = atomOf g value := by
  cases value with
  | array child => exact congrArg Atom.array (h child rfl)
  | object child => exact congrArg Atom.object (h child rfl)
  | null | boolean _ | number _ | string _ => rfl

/-- A key depends on the numbers of the children only. -/
theorem keyOf_congr {f g : NodeId → Nat} (h : ∀ value ∈ tree.slots registry id, ∀ child,
    value.node? = some child → f child = g child) :
    m.keyOf tree registry f id = m.keyOf tree registry g id := by
  have hmap : ∀ values : List Value, (∀ value ∈ values, value ∈ tree.slots registry id) →
      values.map (atomOf f) = values.map (atomOf g) := fun values hvalues =>
    List.map_congr_left fun value hvalue => atomOf_congr (h value (hvalues value hvalue))
  simp only [keyOf]
  split
  · rename_i elements hnode
    rw [hmap elements]
    rw [Tree.slots_of_array (Tree.array?_eq_some_iff.mpr hnode)]
    exact fun _ hv => hv
  · rename_i object hnode
    cases hshape : registry.lookup object.shape with
    | none => rfl
    | some shape =>
        simp only [Option.map_some]
        rw [hmap (Tree.declaredValues registry shape object)]
        rw [Tree.slots_of_object (Tree.object?_eq_some_iff.mpr hnode) hshape]
        exact fun _ hv => hv
  · rfl

/-- The atoms of a key stand for the slots of its node. -/
theorem atoms_of_keyOf {number : NodeId → Nat} {key : ClassKey}
    (h : m.keyOf tree registry number id = some key) :
    key.atoms = (tree.slots registry id).map (atomOf number) := by
  simp only [keyOf] at h
  split at h
  · rename_i elements hnode
    obtain ⟨tag, -, rfl⟩ := Option.map_eq_some_iff.mp h
    rw [Tree.slots_of_array (Tree.array?_eq_some_iff.mpr hnode), ClassKey.atoms]
  · rename_i object hnode
    obtain ⟨shape, hshape, rfl⟩ := Option.map_eq_some_iff.mp h
    rw [Tree.slots_of_object (Tree.object?_eq_some_iff.mpr hnode) hshape, ClassKey.atoms]
  · simp at h

/-! ### Putting a node into its class

Inserting a node changes the members of one class, or adds a class at the end. Everything is said of
keys and of the class in which a node is found. -/

namespace NodeClasses

variable {classes : NodeClasses} {key : ClassKey} {node other : NodeId}

/-- The keys of the classes. -/
def keys (classes : NodeClasses) : List ClassKey := classes.map (·.key)

/-- The number of the class of a node; any number if it is in none. -/
def number (classes : NodeClasses) (node : NodeId) : Nat := (classes.classOf? node).getD 0

theorem keys_cons (c : NodeClass) (classes : NodeClasses) :
    keys (c :: classes) = c.key :: keys classes := rfl

theorem classOf?_cons (c : NodeClass) (classes : NodeClasses) (node : NodeId) :
    classOf? (c :: classes) node =
      if node ∈ c.members then some 0 else (classOf? classes node).map (· + 1) := by
  simp only [classOf?, List.findIdx?_cons]
  by_cases h : node ∈ c.members
  · simp [h]
  · simp [h]

/-- The keys are those there were, and the given one if it is new. -/
theorem keys_insert (key : ClassKey) (node : NodeId) (classes : NodeClasses) :
    (insert key node classes).keys = if key ∈ classes.keys then classes.keys
      else classes.keys ++ [key] := by
  induction classes with
  | nil => rfl
  | cons c classes ih =>
      by_cases h : c.key = key
      · simp [insert, keys_cons, h]
      · have hmem : key ∈ c.key :: keys classes ↔ key ∈ keys classes := by simp [Ne.symm h]
        rw [insert, if_neg h, keys_cons, keys_cons, ih]
        by_cases hkey : key ∈ keys classes
        · rw [if_pos hkey, if_pos (hmem.mpr hkey)]
        · rw [if_neg hkey, if_neg fun hcons => hkey (hmem.mp hcons), List.cons_append]

theorem mem_keys_insert : key ∈ (insert key node classes).keys := by
  rw [keys_insert]
  split
  · assumption
  · exact List.mem_append_right _ (List.mem_singleton_self key)

theorem nodup_keys_insert (h : classes.keys.Nodup) : (insert key node classes).keys.Nodup := by
  rw [keys_insert]
  split
  · exact h
  · rename_i hnew
    refine List.nodup_append.mpr ⟨h, List.nodup_singleton _, ?_⟩
    rintro k hk _ hkey rfl
    exact hnew (List.mem_singleton.mp hkey ▸ hk)

/-- Classes keep their places. -/
theorem getElem?_keys_insert {i : Nat} {k : ClassKey} (h : classes.keys[i]? = some k) :
    (insert key node classes).keys[i]? = some k := by
  rw [keys_insert]
  split
  · exact h
  · rw [List.getElem?_append_left (List.getElem?_eq_some_iff.mp h).1, h]

/-- Only the class of the given key can be new. -/
theorem eq_of_getElem?_keys_insert {i : Nat} {k : ClassKey} (hnone : classes.keys[i]? = none)
    (h : (insert key node classes).keys[i]? = some k) : k = key := by
  rw [keys_insert] at h
  split at h
  · simp [hnone] at h
  · rw [List.getElem?_append_right (List.getElem?_eq_none_iff.mp hnone)] at h
    exact List.mem_singleton.mp (List.mem_of_getElem? h)

theorem length_keys (classes : NodeClasses) : classes.keys.length = classes.length := by
  rw [keys, List.length_map]

theorem length_insert_le : (insert key node classes).length ≤ classes.length + 1 := by
  rw [← length_keys, ← length_keys classes, keys_insert]
  split
  · exact Nat.le_succ _
  · rw [List.length_append, List.length_singleton]

theorem classOf?_lt {i : Nat} (h : classes.classOf? node = some i) : i < classes.keys.length := by
  simpa [keys] using (List.findIdx?_eq_some_iff_getElem.mp h).1

/-- A new node is in the class of its key; all others are where they were. That keys have no
repetitions makes the class of the key the first one with it. -/
theorem classOf?_insert (hnodup : classes.keys.Nodup) (hnew : classes.classOf? node = none) :
    (insert key node classes).classOf? other =
      if other = node then (insert key node classes).keys.idxOf? key else classes.classOf? other := by
  induction classes with
  | nil =>
      rw [insert, classOf?_cons]
      by_cases h : other = node
      · simp [h, keys]
      · simp [h, classOf?]
  | cons c classes ih =>
      rw [classOf?_cons] at hnew
      have hmember : node ∉ c.members := by
        intro hmem
        simp [hmem] at hnew
      rw [if_neg hmember, Option.map_eq_none_iff] at hnew
      have ih := ih (List.nodup_cons.mp hnodup).2 hnew
      by_cases h : c.key = key
      · simp only [insert, if_pos h, classOf?_cons]
        by_cases hother : other = node
        · simp [hother, keys_cons, h, List.idxOf?_cons]
        · simp [hother]
      · simp only [insert, if_neg h, classOf?_cons, ih]
        by_cases hother : other = node
        · simp [hother, hmember, keys_cons, h, List.idxOf?_cons]
        · simp [hother]

/-- A member of a class is the new node or was a member before. -/
theorem mem_members_insert {i : Nat} {c : NodeClass} (hc : (insert key node classes)[i]? = some c)
    (hother : other ∈ c.members) :
    (other = node ∧ c.key = key) ∨ ∃ d, classes[i]? = some d ∧ other ∈ d.members := by
  induction classes generalizing i with
  | nil =>
      obtain rfl : c = ⟨key, [node]⟩ := by simpa [insert] using List.mem_of_getElem? hc
      exact Or.inl ⟨by simpa using hother, rfl⟩
  | cons d classes ih =>
      by_cases h : d.key = key
      · rw [insert, if_pos h] at hc
        cases i with
        | zero =>
            simp only [List.getElem?_cons_zero, Option.some.injEq] at hc
            subst hc
            rcases List.mem_cons.mp hother with rfl | hmem
            · exact Or.inl ⟨rfl, h⟩
            · exact Or.inr ⟨d, rfl, hmem⟩
        | succ i => exact Or.inr ⟨c, hc, hother⟩
      · rw [insert, if_neg h] at hc
        cases i with
        | zero =>
            simp only [List.getElem?_cons_zero, Option.some.injEq] at hc
            subst hc
            exact Or.inr ⟨d, rfl, hother⟩
        | succ i => exact ih hc

end NodeClasses

/-! ### Classifying all nodes

One step of classifying takes the key of a node, with the classes so far, and puts the node into the
class of that key. -/

/-- The classes of the nodes that are done: each of these is in the class of its key, and the
numbers in a key are below that of its class. All of their children are done. -/
structure Classified (m : Module) (tree : Tree) (registry : Registry) (done : List NodeId)
    (classes : NodeClasses) : Prop where
  nodup : classes.keys.Nodup
  isSome_iff : ∀ id, (classes.classOf? id).isSome = true ↔ id ∈ done
  classOf?_eq : ∀ i c id, classes[i]? = some c → id ∈ c.members → classes.classOf? id = some i
  keyOf_eq : ∀ id i, classes.classOf? id = some i →
    m.keyOf tree registry classes.number id = classes.keys[i]?
  number_lt : ∀ (i : Nat) (key : ClassKey), classes.keys[i]? = some key →
    ∀ atom ∈ key.atoms, ∀ n, atom.number? = some n → n < i
  slots_done : ∀ id ∈ done, ∀ value ∈ tree.slots registry id, ∀ child,
    value.node? = some child → child ∈ done
  length_le : classes.length ≤ done.length

theorem classified_nil : Classified m tree registry [] [] where
  nodup := List.nodup_nil
  isSome_iff id := by simp [NodeClasses.classOf?]
  classOf?_eq i c id hc := by simp at hc
  keyOf_eq id i hi := by simp [NodeClasses.classOf?] at hi
  number_lt i key hkey := by simp [NodeClasses.keys] at hkey
  slots_done id hid := by simp at hid
  length_le := Nat.le_refl 0

variable {classes : NodeClasses}

/-- An atom is made of a node that has a class already, and has the number of that class. -/
theorem atom_eq_ok {value : Value} {atom : Atom} (h : classes.atom value = .ok atom) :
    atom = atomOf classes.number value ∧
      ∀ child, value.node? = some child → (classes.classOf? child).isSome = true := by
  have hclass : ∀ {child : NodeId} {n : Nat}, classes.requireClass child = .ok n →
      classes.classOf? child = some n := by
    intro child n hn
    simp only [NodeClasses.requireClass] at hn
    split at hn
    · simp_all
    · simp at hn
  cases value with
  | array child =>
      obtain ⟨n, hn, h₁⟩ := bind_eq_ok.mp h
      obtain rfl : Atom.array n = atom := by simpa [pure, Except.pure] using h₁
      exact ⟨by simp [atomOf, NodeClasses.number, hclass hn], by
        rintro _ ⟨⟩
        simp [hclass hn]⟩
  | object child =>
      obtain ⟨n, hn, h₁⟩ := bind_eq_ok.mp h
      obtain rfl : Atom.object n = atom := by simpa [pure, Except.pure] using h₁
      exact ⟨by simp [atomOf, NodeClasses.number, hclass hn], by
        rintro _ ⟨⟩
        simp [hclass hn]⟩
  | null | boolean _ | number _ | string _ =>
      simp only [NodeClasses.atom, Except.ok.injEq] at h
      exact ⟨h.symm, by simp [Value.node?]⟩

/-- A node gets its key only after its children have their classes. -/
theorem classKey_eq_ok {key : ClassKey} (h : m.classKey tree registry classes id = .ok key) :
    m.keyOf tree registry classes.number id = some key ∧
      ∀ value ∈ tree.slots registry id, ∀ child, value.node? = some child →
        (classes.classOf? child).isSome = true := by
  have hatoms : ∀ {values : List Value} {atoms : List Atom},
      values.mapM classes.atom = .ok atoms → atoms = values.map (atomOf classes.number) ∧
        ∀ value ∈ values, ∀ child, value.node? = some child →
          (classes.classOf? child).isSome = true := by
    intro values atoms hmap
    have hall := mapM_eq_ok.mp hmap
    induction hall with
    | nil => simp
    | cons hhead _ ih =>
        obtain ⟨rfl, hchild⟩ := atom_eq_ok hhead
        obtain ⟨rfl, hrest⟩ := ih (mapM_eq_ok.mpr ‹_›)
        refine ⟨rfl, fun value hvalue => ?_⟩
        rcases List.mem_cons.mp hvalue with rfl | hvalue
        · exact hchild
        · exact hrest value hvalue
  simp only [classKey] at h
  split at h
  · rename_i elements hnode
    split at h
    · rename_i tag htag
      obtain ⟨atoms, hmap, h₁⟩ := bind_eq_ok.mp h
      obtain rfl : ClassKey.array tag atoms = key := by simpa [pure, Except.pure] using h₁
      obtain ⟨rfl, hchildren⟩ := hatoms hmap
      rw [Tree.slots_of_array (Tree.array?_eq_some_iff.mpr hnode)]
      exact ⟨by simp [keyOf, hnode, htag], hchildren⟩
    · simp at h
  · rename_i object hnode
    obtain ⟨shape, hshape, h₁⟩ := bind_eq_ok.mp h
    rw [Registry.shapeOf_eq_ok] at hshape
    obtain ⟨atoms, hmap, h₂⟩ := bind_eq_ok.mp h₁
    obtain rfl : ClassKey.object shape atoms = key := by simpa [pure, Except.pure] using h₂
    obtain ⟨rfl, hchildren⟩ := hatoms hmap
    rw [Tree.slots_of_object (Tree.object?_eq_some_iff.mpr hnode) hshape]
    exact ⟨by simp [keyOf, hnode, hshape, Tree.declaredValues], hchildren⟩
  · simp at h

namespace Classified

variable {done : List NodeId} {key : ClassKey} (h : Classified m tree registry done classes)
  (hnew : id ∉ done)
include h hnew

theorem classOf?_eq_none : classes.classOf? id = none := by
  cases hclass : classes.classOf? id with
  | none => rfl
  | some i => exact absurd ((h.isSome_iff id).mp (by simp [hclass])) hnew

theorem classOf?_insert_self :
    (classes.insert key id).classOf? id = (classes.insert key id).keys.idxOf? key := by
  rw [NodeClasses.classOf?_insert h.nodup (h.classOf?_eq_none hnew), if_pos rfl]

theorem classOf?_insert_of_ne {other : NodeId} (hne : other ≠ id) :
    (classes.insert key id).classOf? other = classes.classOf? other := by
  rw [NodeClasses.classOf?_insert h.nodup (h.classOf?_eq_none hnew), if_neg hne]

/-- Members of a class are found in it after a node is inserted. -/
theorem classOf?_insert_eq {i : Nat} {c : NodeClass} {x : NodeId}
    (hc : (classes.insert key id)[i]? = some c) (hx : x ∈ c.members) :
    (classes.insert key id).classOf? x = some i := by
  rcases NodeClasses.mem_members_insert hc hx with ⟨rfl, hckey⟩ | ⟨d, hd, hxd⟩
  · have hat : (classes.insert key x).keys[i]? = some key := by
      rw [NodeClasses.keys, List.getElem?_map, hc, Option.map_some, hckey]
    obtain ⟨hlt, hget⟩ := List.getElem?_eq_some_iff.mp hat
    rw [h.classOf?_insert_self hnew, List.idxOf?_eq_some_iff]
    refine ⟨hlt, hget, fun j hj heq => ?_⟩
    have := (NodeClasses.nodup_keys_insert h.nodup).getElem_inj_iff.mp (heq.trans hget.symm)
    omega
  · have hclass := h.classOf?_eq i d x hd hxd
    rw [h.classOf?_insert_of_ne hnew, hclass]
    rintro rfl
    simp [h.classOf?_eq_none hnew] at hclass

variable (hkey : m.classKey tree registry classes id = .ok key)
include hkey

omit hnew in
/-- The children of a node that gets a key are done, as are those of the nodes before it. -/
theorem child_done {x : NodeId} (hx : x ∈ done ∨ x = id) :
    ∀ value ∈ tree.slots registry x, ∀ child, value.node? = some child → child ∈ done := by
  rcases hx with hx | rfl
  · exact h.slots_done x hx
  · exact fun value hvalue child hchild =>
      (h.isSome_iff child).mp ((classKey_eq_ok hkey).2 value hvalue child hchild)

/-- Children have their classes already, so no key changes when a node is inserted. -/
theorem keyOf_insert {x : NodeId} (hx : x ∈ done ∨ x = id) :
    m.keyOf tree registry (classes.insert key id).number x =
      m.keyOf tree registry classes.number x := by
  refine keyOf_congr fun value hvalue child hchild => ?_
  have hdone := h.child_done hkey hx value hvalue child hchild
  rw [NodeClasses.number, NodeClasses.number, h.classOf?_insert_of_ne hnew]
  rintro rfl
  exact hnew hdone

/-- A node is in the class of its key, be it the new one or one that was done. -/
theorem keyOf_insert_eq {i : Nat} {x : NodeId}
    (hi : (classes.insert key id).classOf? x = some i) :
    m.keyOf tree registry (classes.insert key id).number x = (classes.insert key id).keys[i]? := by
  by_cases hx : x = id
  · subst hx
    rw [h.classOf?_insert_self hnew] at hi
    obtain ⟨hlt, hget, -⟩ := List.idxOf?_eq_some_iff.mp hi
    rw [h.keyOf_insert hnew hkey (Or.inr rfl), (classKey_eq_ok hkey).1,
      List.getElem?_eq_getElem hlt, hget]
  · rw [h.classOf?_insert_of_ne hnew hx] at hi
    have hdone : x ∈ done := (h.isSome_iff x).mp (by simp [hi])
    have hlt := List.getElem?_eq_getElem (NodeClasses.classOf?_lt hi)
    rw [h.keyOf_insert hnew hkey (Or.inl hdone), h.keyOf_eq x i hi, hlt,
      NodeClasses.getElem?_keys_insert hlt]

omit hnew in
/-- The numbers in a key are below that of its class. If the class is new, its number is above those
of all classes before it, in which the children are. -/
theorem number_lt_insert {i : Nat} {k : ClassKey}
    (hk : (classes.insert key id).keys[i]? = some k) {atom : Atom} (hatom : atom ∈ k.atoms) {n : Nat}
    (hn : atom.number? = some n) : n < i := by
  cases hold : classes.keys[i]? with
  | some k' =>
      obtain rfl : k = k' := Option.some.inj (hk.symm.trans (NodeClasses.getElem?_keys_insert hold))
      exact h.number_lt i k hold atom hatom n hn
  | none =>
      -- the class was opened for the node, whose children are in classes before it
      obtain rfl := NodeClasses.eq_of_getElem?_keys_insert hold hk
      obtain ⟨hkeyOf, hchildren⟩ := classKey_eq_ok hkey
      rw [atoms_of_keyOf hkeyOf, List.mem_map] at hatom
      obtain ⟨value, hvalue, rfl⟩ := hatom
      rw [number?_atomOf, Option.map_eq_some_iff] at hn
      obtain ⟨child, hchild, rfl⟩ := hn
      obtain ⟨j, hj⟩ := Option.isSome_iff_exists.mp (hchildren value hvalue child hchild)
      rw [NodeClasses.number, hj, Option.getD_some]
      exact (NodeClasses.classOf?_lt hj).trans_le (List.getElem?_eq_none_iff.mp hold)

/-- A new node is classified by its key. -/
theorem insert : Classified m tree registry (done ++ [id]) (classes.insert key id) where
  nodup := NodeClasses.nodup_keys_insert h.nodup
  isSome_iff x := by
    by_cases hx : x = id
    · rw [hx, h.classOf?_insert_self hnew, List.isSome_idxOf?]
      simp [NodeClasses.mem_keys_insert]
    · rw [h.classOf?_insert_of_ne hnew hx, h.isSome_iff]
      simp [hx]
  classOf?_eq _ _ _ := h.classOf?_insert_eq hnew
  keyOf_eq _ _ := h.keyOf_insert_eq hnew hkey
  number_lt _ _ hk _ hatom _ := h.number_lt_insert hkey hk hatom
  slots_done x hx value hvalue child hchild := by
    have hx' : x ∈ done ∨ x = id := by simpa using hx
    exact List.mem_append_left _ (h.child_done hkey hx' value hvalue child hchild)
  length_le := by
    rw [List.length_append, List.length_singleton]
    exact NodeClasses.length_insert_le.trans (Nat.succ_le_succ h.length_le)

end Classified

/-- The classes of different nodes, each after those it refers to, by induction on the nodes that
are done. -/
theorem classified_of_classify {postOrder : List NodeId} (hnodup : postOrder.Nodup)
    (h : m.classify tree registry postOrder = .ok classes) :
    Classified m tree registry postOrder classes := by
  refine foldlM_induction (motive := fun done classes => Classified m tree registry done classes) h
    classified_nil fun done id rest b c hsplit hb hstep => ?_
  obtain ⟨key, hkey, h₁⟩ := bind_eq_ok.mp hstep
  obtain rfl : b.insert key id = c := by simpa [pure, Except.pure] using h₁
  refine hb.insert (fun hid => ?_) hkey
  rw [hsplit, List.nodup_append] at hnodup
  exact hnodup.2.2 id hid id List.mem_cons_self rfl

end Module

end SyntaxPack
