import SyntaxPack.Proofs.Halting
import SyntaxPack.Proofs.Tree.Corresponding
import SyntaxPack.Proofs.Tree.Search
/-!
# SyntaxPack.Proofs.Tree.Bisimulation

Trees that stand for the same are bisimilar.

A `Bisimulation` relates nodes that agree: arrays element by element, objects of one shape in every
field that one of them sets, where references agree if they lead to related nodes. Two trees stand
for the same if and only if a bisimulation relates their roots. The inverse of a bisimulation is
one, and so is the composition of two, so standing for the same is symmetric and transitive.

The comparison assumes that a pair of nodes agrees as soon as it has opened it, and it has no other
bound than that. `Comparison` is that loop, on a list of pairs that are still to be compared. It
halts since each pair of nodes is opened once at most, and its answer is `structuralEq`.
-/

namespace SyntaxPack

namespace Tree

/-- A comparison of two trees. -/
structure Comparison where
  /-- The pairs of nodes that were opened. -/
  compared : Compared
  /-- The pairs of values that are still to be compared, the next one first. -/
  pending : List (Value × Value)

namespace Comparison

/-- A comparison that has not begun. -/
def start (a b : Tree) : Comparison := ⟨[], [(a.root, b.root)]⟩

/-- A step of a comparison. -/
def step (a b : Tree) (comparison : Comparison) : Comparison ⊕ Bool :=
  match comparison.pending with
  | [] => .inr true
  | (left, right) :: pending =>
    match left, right with
    | .array x, .array y | .object x, .object y =>
      if comparison.compared.contains (x, y) then .inl ⟨comparison.compared, pending⟩
      else
        match matchNodes (a.node? x) (b.node? y) with
        | some pairs => .inl ⟨(x, y) :: comparison.compared, pairs ++ pending⟩
        | none => .inr false
    | .array _, _ | .object _, _ => .inr false
    | left, right => if left = right then .inl ⟨comparison.compared, pending⟩ else .inr false

variable {a b : Tree} {left right : Value} {x y : NodeId} {compared compared' : Compared}
  {pending pairs : List (Value × Value)} {depth : Nat} {s t : Comparison}

/-- Two values refer to two nodes, both as arrays or both as objects. -/
def BothRefer (left right : Value) (x y : NodeId) : Prop :=
  (left = .array x ∧ right = .array y) ∨ (left = .object x ∧ right = .object y)

/-! ### One step

What a step does depends on whether the two values refer to nodes in the same way. If they do, the
pair was opened before, or it is opened now, or its nodes do not match; otherwise the values are
compared as they are. -/

section Refer

variable (h : BothRefer left right x y)
include h

theorem compareWithin_of_refer (depth : Nat) (compared : Compared) :
    compareWithin a b depth compared (left, right) = compareNodes a b depth compared x y := by
  rcases h with ⟨rfl, rfl⟩ | ⟨rfl, rfl⟩
  · exact compareWithin_array depth compared x y
  · exact compareWithin_object depth compared x y

theorem step_known (hmem : (x, y) ∈ compared) :
    step a b ⟨compared, (left, right) :: pending⟩ = .inl ⟨compared, pending⟩ := by
  rcases h with ⟨rfl, rfl⟩ | ⟨rfl, rfl⟩
  · simp [step, hmem]
  · simp [step, hmem]

theorem step_open (hnew : (x, y) ∉ compared)
    (hmatch : matchNodes (a.node? x) (b.node? y) = some pairs) :
    step a b ⟨compared, (left, right) :: pending⟩ =
      .inl ⟨(x, y) :: compared, pairs ++ pending⟩ := by
  rcases h with ⟨rfl, rfl⟩ | ⟨rfl, rfl⟩
  · simp [step, hnew, hmatch]
  · simp [step, hnew, hmatch]

theorem step_unmatched (hnew : (x, y) ∉ compared)
    (hmatch : matchNodes (a.node? x) (b.node? y) = none) :
    step a b ⟨compared, (left, right) :: pending⟩ = .inr false := by
  rcases h with ⟨rfl, rfl⟩ | ⟨rfl, rfl⟩
  · simp [step, hnew, hmatch]
  · simp [step, hnew, hmatch]

end Refer

/-- Values that do not refer to nodes in the same way are compared by themselves. -/
theorem compareWithin_of_not_refer (h : ∀ x y, ¬ BothRefer left right x y) (depth : Nat)
    (compared : Compared) : compareWithin a b depth compared (left, right) =
      if left = right then some compared else none := by
  cases left <;> cases right <;> cases depth <;> simp_all [compareWithin, BothRefer]

theorem step_of_not_refer (h : ∀ x y, ¬ BothRefer left right x y) :
    step a b ⟨compared, (left, right) :: pending⟩ =
      if left = right then .inl ⟨compared, pending⟩ else .inr false := by
  cases left <;> cases right <;> simp_all [step, BothRefer]

/-! ### A comparison within a depth

`structuralEq` is computed by recursion on a depth that is more than the number of pairs of nodes.
The loop has no depth. `Follows` relates the two: the loop goes on to the state that the recursion
comes to, with its list shortened by what was compared. Room is measured by the pairs that were
opened, whose number only grows and never exceeds that of all pairs. -/

/-- The loop does what a comparison comes to: it goes on with the pairs of nodes that were opened,
each of them once, or has found a difference. -/
inductive Follows (a b : Tree) (s : Comparison) (pending : List (Value × Value)) :
    Option Compared → Prop
  | same {compared : Compared} (hsteps : Continues (step a b) s ⟨compared, pending⟩)
      (hopened : Opened a b compared) (hle : s.compared.length ≤ compared.length) :
      Follows a b s pending (some compared)
  | different (hhalts : Halts (step a b) s false) : Follows a b s pending none

theorem Follows.of_continues {outcome : Option Compared} (h : Continues (step a b) s t)
    (hle : s.compared.length ≤ t.compared.length) (ht : Follows a b t pending outcome) :
    Follows a b s pending outcome := by
  cases ht with
  | same hsteps hopened hle' => exact .same (h.trans hsteps) hopened (hle.trans hle')
  | different hhalts => exact .different (h.halts hhalts)

/-- If the loop does what comparing one pair comes to, it does what comparing several comes to. -/
theorem follows_compareAll {compare : Compared → Value × Value → Option Compared}
    (h : Opened a b compared)
    (hcompare : ∀ compared' p pending, Opened a b compared' → compared.length ≤ compared'.length →
      Follows a b ⟨compared', p :: pending⟩ pending (compare compared' p)) :
    Follows a b ⟨compared, pairs ++ pending⟩ pending (compareAll compare compared pairs) := by
  induction pairs generalizing compared with
  | nil => exact .same (.refl _) h (Nat.le_refl _)
  | cons p pairs ih =>
      have hfirst := hcompare compared p (pairs ++ pending) h (Nat.le_refl _)
      rw [compareAll, List.foldlM_cons]
      cases hp : compare compared p with
      | none =>
          rw [hp] at hfirst
          cases hfirst with
          | different hhalts => exact .different hhalts
      | some middle =>
          rw [hp] at hfirst
          cases hfirst with
          | same hsteps hopened hle =>
              refine .of_continues hsteps hle (ih hopened fun compared' q pending' hq hle' => ?_)
              exact hcompare compared' q pending' hq (hle.trans hle')

/-- A comparison with room for all pairs that were not opened does what the loop does, which has no
bound. -/
theorem follows_compareWithin (h : Opened a b compared)
    (hroom : a.size * b.size < depth + compared.length) :
    Follows a b ⟨compared, (left, right) :: pending⟩ pending
      (compareWithin a b depth compared (left, right)) := by
  induction depth generalizing compared left right pending with
  | zero =>
      have := h.length_le
      omega
  | succ depth ih =>
      by_cases hrefer : ∃ x y, BothRefer left right x y
      · obtain ⟨x, y, hrefer⟩ := hrefer
        rw [compareWithin_of_refer hrefer, compareNodes]
        by_cases hmem : (x, y) ∈ compared
        · rw [if_pos (by simpa using hmem)]
          exact .same (.single (step_known hrefer hmem)) h (Nat.le_refl _)
        · rw [if_neg (by simpa using hmem)]
          cases hmatch : matchNodes (a.node? x) (b.node? y) with
          | none => exact .different (.answer (step_unmatched hrefer hmem hmatch))
          | some pairs =>
              -- the pair is one more that was opened, so there is room for the rest below it
              refine .of_continues (.single (step_open hrefer hmem hmatch)) (Nat.le_succ _)
                (follows_compareAll (h.cons hmem hmatch) fun compared' p pending' hopened hle => ?_)
              rw [List.length_cons] at hle
              exact ih hopened (by omega)
      · have hplain : ∀ x y, ¬ BothRefer left right x y := fun x y hxy => hrefer ⟨x, y, hxy⟩
        rw [compareWithin_of_not_refer hplain]
        by_cases heq : left = right
        · rw [if_pos heq]
          exact .same (.single (by rw [step_of_not_refer hplain, if_pos heq])) h (Nat.le_refl _)
        · rw [if_neg heq]
          exact .different (.answer (by rw [step_of_not_refer hplain, if_neg heq]))

/-- Comparing two trees comes to an end, and to the answer of the comparison within a depth. -/
theorem halts_structuralEq (a b : Tree) : Halts (step a b) (start a b) (a.structuralEq b) := by
  have hfollows : Follows a b (start a b) []
      (compareWithin a b (a.size * b.size + 1) [] (a.root, b.root)) :=
    follows_compareWithin ⟨List.nodup_nil, by simp⟩ (Nat.lt_succ_self _)
  rw [structuralEq, valuesEq]
  cases hcompare : compareWithin a b (a.size * b.size + 1) [] (a.root, b.root) with
  | none =>
      rw [hcompare] at hfollows
      cases hfollows with
      | different hhalts => exact hhalts
  | some compared =>
      rw [hcompare] at hfollows
      cases hfollows with
      | same hsteps _ _ => exact hsteps.halts (.answer rfl)

end Comparison

/-! ### Bisimulations

The comparison reads objects field by field, and a field that is not set as null. `Agree` says this
without an order among fields, so that it is plain that agreement is symmetric and transitive. -/

/-- Two nodes are arrays of one length that agree element by element, or objects of one shape that
agree in every field that one of them sets. A field that is not set reads as null. -/
inductive Agree (a b : Tree) (related : NodeId → NodeId → Prop) (x y : NodeId) : Prop
  | array {elements others : List Value} (hx : a.array? x = some elements)
      (hy : b.array? y = some others) (helements : List.Forall₂ (Alike related) elements others)
  | object {object other : Object} (hx : a.object? x = some object) (hy : b.object? y = some other)
      (hshape : object.shape = other.shape)
      (hfields : ∀ name ∈ (object.fields ++ other.fields).map (·.1),
        Alike related (object.get name) (other.get name))

/-- A relation between nodes of two trees that no pair refutes. -/
def Bisimulation (a b : Tree) (related : NodeId → NodeId → Prop) : Prop :=
  ∀ x y, related x y → Agree a b related x y

variable {a b c tree : Tree} {related related' : NodeId → NodeId → Prop} {x y z : NodeId}

/-- Nodes that agree are nodes that match. -/
theorem matched_iff_agree : Matched a b related x y ↔ Agree a b related x y := by
  constructor
  · intro h
    rcases h.cases with ⟨elements, others, hx, hy, helements⟩ | ⟨object, other, hx, hy, hshape, hget⟩
    · exact .array hx hy helements
    · exact .object hx hy hshape fun name _ => hget name
  · intro h
    cases h with
    | array hx hy helements => exact matched_arrays hx hy helements
    | @object object other hx hy hshape hfields =>
        refine ⟨(object.fields ++ other.fields).map fun p => (object.get p.1, other.get p.1), ?_, ?_⟩
        · rw [object?_eq_some_iff.mp hx, object?_eq_some_iff.mp hy, matchNodes, if_pos hshape]
        · intro p hp
          obtain ⟨entry, hentry, rfl⟩ := List.mem_map.mp hp
          exact hfields entry.1 (List.mem_map_of_mem hentry)

/-- Objects that agree do so in every field, set or not. -/
theorem Agree.alike_get (h : Agree a b related x y) {object other : Object}
    (hx : a.object? x = some object) (hy : b.object? y = some other) :
    object.shape = other.shape ∧ ∀ name, Alike related (object.get name) (other.get name) := by
  rcases (matched_iff_agree.mpr h).cases with ⟨elements, -, harray, -⟩ |
    ⟨object', other', hx', hy', hshape, hget⟩
  · simp [array?_eq_none_of_object hx] at harray
  · obtain rfl := Option.some.inj (hx'.symm.trans hx)
    obtain rfl := Option.some.inj (hy'.symm.trans hy)
    exact ⟨hshape, hget⟩

/-- Nodes that agree do so the other way round. -/
theorem Agree.flip (h : Agree a b related x y) : Agree b a (flip related) y x := by
  cases h with
  | array hx hy helements => exact .array hy hx (alike_flip helements)
  | object hx hy hshape hfields =>
      refine .object hy hx hshape.symm fun name hname => Alike.flip (hfields name ?_)
      rw [List.map_append, List.mem_append] at hname ⊢
      exact hname.symm

theorem Agree.comp (h : Agree a b related x y) (h' : Agree b c related' y z) :
    Agree a c (Relation.Comp related related') x z := by
  cases h with
  | array hx hy helements =>
      cases h' with
      | array hy' hz helements' =>
          obtain rfl := Option.some.inj (hy'.symm.trans hy)
          exact .array hx hz (alike_comp helements helements')
      | object hy' _ _ _ => simp [array?_eq_none_of_object hy'] at hy
  | object hx hy hshape hfields =>
      cases h' with
      | array hy' _ _ => simp [array?_eq_none_of_object hy] at hy'
      | object hy' hz hshape' hfields' =>
          obtain rfl := Option.some.inj (hy'.symm.trans hy)
          obtain ⟨-, hget⟩ := Agree.alike_get (.object hx hy hshape hfields) hx hy
          obtain ⟨-, hget'⟩ := Agree.alike_get (.object hy hz hshape' hfields') hy hz
          exact .object hx hz (hshape.trans hshape') fun name _ => (hget name).comp (hget' name)

theorem Bisimulation.flip (h : Bisimulation a b related) : Bisimulation b a (flip related) :=
  fun y x hyx => (h x y hyx).flip

theorem Bisimulation.comp (h : Bisimulation a b related) (h' : Bisimulation b c related') :
    Bisimulation a c (Relation.Comp related related') := by
  intro x z hxz
  obtain ⟨y, hxy, hyz⟩ := hxz
  exact (h x y hxy).comp (h' y z hyz)

/-- Two trees stand for the same if and only if a bisimulation relates their roots. -/
theorem structuralEq_iff_bisimulation : a.structuralEq b = true ↔
    ∃ related, Bisimulation a b related ∧ Alike related a.root b.root := by
  rw [structuralEq_iff]
  simp only [matched_iff_agree, Bisimulation]

theorem structuralEq_symm (h : a.structuralEq b = true) : b.structuralEq a = true := by
  obtain ⟨related, hrelated, hroots⟩ := structuralEq_iff_bisimulation.mp h
  exact structuralEq_iff_bisimulation.mpr ⟨_, hrelated.flip, hroots.flip⟩

theorem structuralEq_trans (h : a.structuralEq b = true) (h' : b.structuralEq c = true) :
    a.structuralEq c = true := by
  obtain ⟨related, hrelated, hroots⟩ := structuralEq_iff_bisimulation.mp h
  obtain ⟨related', hrelated', hroots'⟩ := structuralEq_iff_bisimulation.mp h'
  exact structuralEq_iff_bisimulation.mpr ⟨_, hrelated.comp hrelated', hroots.comp hroots'⟩

/-! ### A tree and itself

A reference that leads nowhere agrees with nothing, not even with itself. Otherwise the identity is
a bisimulation on what the root leads to. -/

/-- Every reference that the root leads to leads to a node. -/
def Grounded (tree : Tree) : Prop := ∀ id, tree.Reachable id → (tree.node? id).isSome = true

/-- A value is like itself if the node that it refers to is. -/
theorem alike_self {value : Value} (h : ∀ id, value.node? = some id → related id id) :
    Alike related value value := by
  cases value with
  | array id => exact .array (h id rfl)
  | object id => exact .object (h id rfl)
  | null | boolean _ | number _ | string _ => exact .plain rfl

/-- Nodes that can be reached agree with themselves. -/
theorem Grounded.bisimulation (h : tree.Grounded) :
    Bisimulation tree tree fun x y => x = y ∧ tree.Reachable x := by
  intro x y hxy
  obtain ⟨rfl, hreachable⟩ := hxy
  obtain ⟨node, hnode⟩ := Option.isSome_iff_exists.mp (h x hreachable)
  have hchild : ∀ value ∈ node.children,
      Alike (fun x y => x = y ∧ tree.Reachable x) value value := by
    intro value hvalue
    refine alike_self fun id hid => ⟨rfl, ?_⟩
    obtain ⟨root, hroot, hpath⟩ := hreachable
    exact ⟨root, hroot, hpath.tail ⟨node, hnode, List.mem_filterMap.mpr ⟨value, hvalue, hid⟩⟩⟩
  cases node with
  | array elements =>
      have harray := array?_eq_some_iff.mpr hnode
      exact .array harray harray (List.forall₂_same.mpr hchild)
  | object content =>
      have hobject := object?_eq_some_iff.mpr hnode
      refine .object hobject hobject rfl fun name _ => ?_
      by_cases hnull : content.get name = .null
      · rw [hnull]
        exact .plain rfl
      · exact hchild _ (get_mem_children hnull)

theorem Grounded.structuralEq_self (h : tree.Grounded) : tree.structuralEq tree = true := by
  refine structuralEq_iff_bisimulation.mpr ⟨_, h.bisimulation, alike_self fun id hid => ⟨rfl, ?_⟩⟩
  exact ⟨id, hid, .refl⟩

/-- Comparing two trees comes to an end, and finds no difference if and only if they are bisimilar.
So it is symmetric and transitive, and no tree that is grounded differs from itself. -/
theorem structuralEq_bisimilar (a b : Tree) :
    (∀ answer, Halts (Comparison.step a b) (Comparison.start a b) answer ↔
      answer = a.structuralEq b) ∧
    (a.structuralEq b = true ↔
      ∃ related, Bisimulation a b related ∧ Alike related a.root b.root) ∧
    (a.structuralEq b = true ↔ b.structuralEq a = true) ∧
    (∀ c, a.structuralEq b = true → b.structuralEq c = true → a.structuralEq c = true) ∧
    (a.Grounded → a.structuralEq a = true) := by
  refine ⟨fun answer => ⟨fun h => h.unique (Comparison.halts_structuralEq a b), ?_⟩,
    structuralEq_iff_bisimulation, ⟨structuralEq_symm, structuralEq_symm⟩,
    fun c => structuralEq_trans, Grounded.structuralEq_self⟩
  intro heq
  subst heq
  exact Comparison.halts_structuralEq a b

/-- Pairs that refer to one another in a ring. -/
def ringOf (size : Nat) : Tree where
  nodes := ((List.range size).map fun i =>
    .object ⟨"Pair", [("next", .object ⟨(i + 1) % size⟩)]⟩).toArray
  root := .object ⟨0⟩

/-- The two pairs lead to each other only. -/
theorem facingPairs_grounded : facingPairs.Grounded := by
  intro id hid
  obtain ⟨root, hroot, hpath⟩ := hid
  obtain rfl := Option.some.inj hroot
  have hpair : id = ⟨2⟩ ∨ id = ⟨3⟩ := by
    induction hpath with
    | refl => exact .inr rfl
    | tail _ hrefers ih =>
        obtain ⟨node, hnode, hmem⟩ := hrefers
        rcases ih with rfl | rfl
        · obtain rfl := Option.some.inj hnode
          exact .inr (List.mem_singleton.mp hmem)
        · obtain rfl := Option.some.inj hnode
          exact .inl (List.mem_singleton.mp hmem)
  rcases hpair with rfl | rfl
  · rfl
  · rfl

/-- A ring of two pairs, of one pair and of three pairs stand for the same. -/
theorem facingPairs_bisimilar :
    facingPairs.structuralEq (ringOf 1) = true ∧ (ringOf 1).structuralEq (ringOf 3) = true ∧
      facingPairs.structuralEq (ringOf 3) = true ∧ facingPairs.Grounded ∧
      facingPairs.structuralEq facingPairs = true := by
  have hone : facingPairs.structuralEq (ringOf 1) = true := by decide +kernel
  have hthree : (ringOf 1).structuralEq (ringOf 3) = true := by decide +kernel
  obtain ⟨-, -, -, htrans, hself⟩ := structuralEq_bisimilar facingPairs (ringOf 1)
  exact ⟨hone, hthree, htrans (ringOf 3) hone hthree, facingPairs_grounded,
    hself facingPairs_grounded⟩

end Tree

end SyntaxPack
