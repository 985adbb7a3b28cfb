import SyntaxPack.Tree.Equality
import SyntaxPack.Proofs.Monad
import Mathlib.Data.Finset.Prod
import Mathlib.Data.Finset.Card
import Mathlib.Data.List.Nodup
/-!
# SyntaxPack.Proofs.Tree.Equality

What it means that two trees stand for the same.

The comparison of two trees finds no difference if and only if there is a relation between
their nodes that no single node refutes: related nodes must match, and the values that
they must agree on are equal or refer to related nodes again. One direction takes the
pairs that were compared as the relation. The other one walks along a given relation; every
pair it opens is a new one, so it never runs out of depth.
-/

namespace SyntaxPack

namespace Tree

variable {a b : Tree} {related : NodeId → NodeId → Prop} {left right : Value}

/-- Two values are equal, or refer to related nodes of one kind. -/
inductive Alike (related : NodeId → NodeId → Prop) : Value → Value → Prop
  | plain {value : Value} (h : value.node? = none) : Alike related value value
  | array {x y : NodeId} (h : related x y) : Alike related (.array x) (.array y)
  | object {x y : NodeId} (h : related x y) : Alike related (.object x) (.object y)

theorem Alike.imp {related' : NodeId → NodeId → Prop} (h : Alike related left right)
    (himp : ∀ x y, related x y → related' x y) : Alike related' left right := by
  cases h with
  | plain hnode => exact .plain hnode
  | array hxy => exact .array (himp _ _ hxy)
  | object hxy => exact .object (himp _ _ hxy)

/-- Two nodes match by themselves, and all that they must agree on is alike. -/
def Matched (a b : Tree) (related : NodeId → NodeId → Prop) (x y : NodeId) : Prop :=
  ∃ pairs, matchNodes (a.node? x) (b.node? y) = some pairs ∧
    ∀ p ∈ pairs, Alike related p.1 p.2

theorem Matched.imp {related' : NodeId → NodeId → Prop} {x y : NodeId}
    (h : Matched a b related x y) (himp : ∀ x y, related x y → related' x y) :
    Matched a b related' x y := by
  obtain ⟨pairs, hmatch, hpairs⟩ := h
  exact ⟨pairs, hmatch, fun p hp => (hpairs p hp).imp himp⟩

theorem exists_node_of_matchNodes {x y : Option Node} {pairs : List (Value × Value)}
    (h : matchNodes x y = some pairs) : x.isSome = true ∧ y.isSome = true := by
  rcases x with _ | (_ | _) <;> rcases y with _ | (_ | _) <;> simp [matchNodes] at h ⊢

/-! ### What was compared -/

/-- What a comparison of two values that are `alike` comes to, given what had been compared
before: all pairs that it adds are matched. -/
structure Compares (a b : Tree) (compared compared' : Compared) : Prop where
  subset : compared ⊆ compared'
  matched : ∀ p ∈ compared', p ∈ compared ∨ Matched a b (fun x y => (x, y) ∈ compared') p.1 p.2

theorem Compares.refl (compared : Compared) : Compares a b compared compared :=
  ⟨fun _ h => h, fun _ h => Or.inl h⟩

theorem Compares.trans {compared compared' compared'' : Compared} (h : Compares a b compared compared')
    (h' : Compares a b compared' compared'') : Compares a b compared compared'' := by
  refine ⟨fun p hp => h'.subset (h.subset hp), fun p hp => ?_⟩
  rcases h'.matched p hp with hp | hmatched
  · rcases h.matched p hp with hp | hmatched
    · exact Or.inl hp
    · exact Or.inr (hmatched.imp fun x y hxy => h'.subset hxy)
  · exact Or.inr hmatched

/-- Whatever was compared is alike by what has been compared in the end. -/
theorem compareAll_eq_some {compare : Compared → Value × Value → Option Compared}
    {compared compared' : Compared} {pairs : List (Value × Value)}
    (hcompare : ∀ {compared compared' p}, compare compared p = some compared' →
      Compares a b compared compared' ∧ Alike (fun x y => (x, y) ∈ compared') p.1 p.2)
    (h : compareAll compare compared pairs = some compared') :
    Compares a b compared compared' ∧
      ∀ p ∈ pairs, Alike (fun x y => (x, y) ∈ compared') p.1 p.2 := by
  induction pairs generalizing compared with
  | nil =>
      obtain rfl := Option.some.inj h
      exact ⟨.refl compared, by simp⟩
  | cons p pairs ih =>
      obtain ⟨middle, hp, hrest⟩ := Option.bind_eq_some_iff.mp h
      obtain ⟨hfirst, halike⟩ := hcompare hp
      obtain ⟨hcompares, hall⟩ := ih hrest
      refine ⟨hfirst.trans hcompares, fun q hq => ?_⟩
      rcases List.mem_cons.mp hq with rfl | hq
      · exact halike.imp fun x y hxy => hcompares.subset hxy
      · exact hall q hq

/-- A comparison of two nodes adds their pair before it goes on to what they must agree on. -/
theorem compares_cons {compared compared' : Compared} {x y : NodeId} {pairs : List (Value × Value)}
    (hmatch : matchNodes (a.node? x) (b.node? y) = some pairs)
    (h : Compares a b ((x, y) :: compared) compared')
    (hpairs : ∀ p ∈ pairs, Alike (fun x y => (x, y) ∈ compared') p.1 p.2) :
    Compares a b compared compared' ∧ (x, y) ∈ compared' := by
  refine ⟨⟨fun p hp => h.subset (List.mem_cons_of_mem _ hp), fun p hp => ?_⟩,
    h.subset List.mem_cons_self⟩
  rcases h.matched p hp with hmem | hmatched
  · rcases List.mem_cons.mp hmem with rfl | hmem
    · exact Or.inr ⟨pairs, hmatch, hpairs⟩
    · exact Or.inl hmem
  · exact Or.inr hmatched

/-- Compares two nodes, unless that has begun before. -/
def compareNodes (a b : Tree) (depth : Nat) (compared : Compared) (x y : NodeId) :
    Option Compared :=
  if compared.contains (x, y) then some compared
  else
    match depth with
    | 0 => none
    | depth + 1 => do
      let pairs ← matchNodes (a.node? x) (b.node? y)
      compareAll (compareWithin a b depth) ((x, y) :: compared) pairs

theorem compareWithin_array (depth : Nat) (compared : Compared) (x y : NodeId) :
    compareWithin a b depth compared (.array x, .array y) = compareNodes a b depth compared x y := by
  cases depth <;> rfl

theorem compareWithin_object (depth : Nat) (compared : Compared) (x y : NodeId) :
    compareWithin a b depth compared (.object x, .object y) =
      compareNodes a b depth compared x y := by
  cases depth <;> rfl

/-- Values that refer to compared nodes. -/
theorem alike_of_mem {compared : Compared} {x y : NodeId} (h : (x, y) ∈ compared)
    (hkind : (left = .array x ∧ right = .array y) ∨ (left = .object x ∧ right = .object y)) :
    Alike (fun x y => (x, y) ∈ compared) left right := by
  rcases hkind with ⟨rfl, rfl⟩ | ⟨rfl, rfl⟩
  · exact .array h
  · exact .object h

theorem compareWithin_self (depth : Nat) (compared : Compared) {value : Value}
    (h : value.node? = none) : compareWithin a b depth compared (value, value) = some compared := by
  cases value <;> cases depth <;> simp_all [compareWithin, Value.node?]

/-- A comparison is one of nodes of one kind, or the values are equal and no nodes. -/
theorem compareWithin_cases {depth : Nat} {compared compared' : Compared}
    (h : compareWithin a b depth compared (left, right) = some compared') :
    (left.node? = none ∧ left = right ∧ compared' = compared) ∨
      ∃ x y, compareNodes a b depth compared x y = some compared' ∧
        ((left = .array x ∧ right = .array y) ∨ (left = .object x ∧ right = .object y)) := by
  cases left <;> cases right <;> cases depth
  all_goals
    first
    | exact Or.inr ⟨_, _, h, Or.inl ⟨rfl, rfl⟩⟩
    | exact Or.inr ⟨_, _, h, Or.inr ⟨rfl, rfl⟩⟩
    | simp_all [compareWithin, Value.node?]

theorem compareNodes_cases {depth : Nat} {compared compared' : Compared} {x y : NodeId}
    (h : compareNodes a b depth compared x y = some compared') :
    ((x, y) ∈ compared ∧ compared' = compared) ∨
      ∃ below pairs, depth = below + 1 ∧ matchNodes (a.node? x) (b.node? y) = some pairs ∧
        compareAll (compareWithin a b below) ((x, y) :: compared) pairs = some compared' := by
  unfold compareNodes at h
  split at h
  · rename_i hmem
    exact Or.inl ⟨by simpa using hmem, (Option.some.inj h).symm⟩
  · cases depth with
    | zero => simp at h
    | succ below =>
        obtain ⟨pairs, hmatch, hall⟩ := Option.bind_eq_some_iff.mp h
        exact Or.inr ⟨below, pairs, rfl, hmatch, hall⟩

/-- What a comparison finds to be alike is alike by what has been compared in the end. -/
theorem compareWithin_eq_some {depth : Nat} {compared compared' : Compared}
    (h : compareWithin a b depth compared (left, right) = some compared') :
    Compares a b compared compared' ∧ Alike (fun x y => (x, y) ∈ compared') left right := by
  induction depth using Nat.strongRecOn generalizing compared compared' left right with
  | ind depth ih =>
      rcases compareWithin_cases h with ⟨hnode, rfl, rfl⟩ | ⟨x, y, hnodes, hkind⟩
      · exact ⟨.refl _, .plain hnode⟩
      · rcases compareNodes_cases hnodes with ⟨hmem, rfl⟩ | ⟨below, pairs, rfl, hmatch, hall⟩
        · exact ⟨.refl _, alike_of_mem hmem hkind⟩
        · obtain ⟨hcompares, hpairs⟩ := compareAll_eq_some (fun hp => ih below (Nat.lt_succ_self _) hp) hall
          obtain ⟨hstep, hmem⟩ := compares_cons hmatch hcompares hpairs
          exact ⟨hstep, alike_of_mem hmem hkind⟩

/-! ### Walking along a relation -/

/-- Pairs of nodes that a comparison can have opened: each one once, and no more than there
are. -/
structure Opened (a b : Tree) (compared : Compared) : Prop where
  nodup : compared.Nodup
  lt_size : ∀ p ∈ compared, p.1.index < a.size ∧ p.2.index < b.size

theorem Opened.length_le {compared : Compared} (h : Opened a b compared) :
    compared.length ≤ a.size * b.size := by
  have hinj : Function.Injective fun p : NodeId × NodeId => (p.1.index, p.2.index) := by
    rintro ⟨⟨i⟩, ⟨j⟩⟩ ⟨⟨k⟩, ⟨l⟩⟩ heq
    simpa using heq
  have hsubset : (compared.map fun p => (p.1.index, p.2.index)).toFinset ⊆
      Finset.range a.size ×ˢ Finset.range b.size := by
    intro q hq
    obtain ⟨p, hp, rfl⟩ := List.mem_map.mp (List.mem_toFinset.mp hq)
    simpa using h.lt_size p hp
  have hcard := Finset.card_le_card hsubset
  rw [List.toFinset_card_of_nodup (h.nodup.map hinj), List.length_map, Finset.card_product,
    Finset.card_range, Finset.card_range] at hcard
  exact hcard

/-- A pair that was not opened before is opened. -/
theorem Opened.cons {compared : Compared} {x y : NodeId} {pairs : List (Value × Value)}
    (h : Opened a b compared) (hnew : (x, y) ∉ compared)
    (hmatch : matchNodes (a.node? x) (b.node? y) = some pairs) : Opened a b ((x, y) :: compared) := by
  obtain ⟨hx, hy⟩ := exists_node_of_matchNodes hmatch
  refine ⟨List.nodup_cons.mpr ⟨hnew, h.nodup⟩, fun p hp => ?_⟩
  rcases List.mem_cons.mp hp with rfl | hp
  · exact ⟨by simpa [Tree.node?, Tree.size] using hx, by simpa [Tree.node?, Tree.size] using hy⟩
  · exact h.lt_size p hp

/-- Values that can be compared one by one can be compared one after another. -/
theorem compareAll_progress {compare : Compared → Value × Value → Option Compared}
    {compared : Compared} {pairs : List (Value × Value)} (h : Opened a b compared)
    (hcompare : ∀ compared' p, Opened a b compared' → compared.length ≤ compared'.length → p ∈ pairs →
      ∃ compared'', compare compared' p = some compared'' ∧ Opened a b compared'' ∧
        compared'.length ≤ compared''.length) :
    ∃ compared', compareAll compare compared pairs = some compared' ∧ Opened a b compared' ∧
      compared.length ≤ compared'.length := by
  induction pairs generalizing compared with
  | nil => exact ⟨compared, rfl, h, Nat.le_refl _⟩
  | cons p pairs ih =>
      obtain ⟨middle, hp, hmiddle, hle⟩ := hcompare compared p h (Nat.le_refl _) List.mem_cons_self
      obtain ⟨compared', hall, hopened, hle'⟩ := ih hmiddle fun compared' q hopened hge hq =>
        hcompare compared' q hopened (Nat.le_trans hle hge) (List.mem_cons_of_mem p hq)
      refine ⟨compared', ?_, hopened, Nat.le_trans hle hle'⟩
      rw [compareAll, List.foldlM_cons, hp]
      exact hall

/-- A comparison along a relation in which related nodes match finds no difference, as long
as there is room for the pairs that have not been opened. -/
theorem compareWithin_progress (hrelated : ∀ x y, related x y → Matched a b related x y)
    {depth : Nat} {compared : Compared} (h : Opened a b compared)
    (hroom : a.size * b.size < depth + compared.length) (halike : Alike related left right) :
    ∃ compared', compareWithin a b depth compared (left, right) = some compared' ∧
      Opened a b compared' ∧ compared.length ≤ compared'.length := by
  induction depth generalizing compared left right with
  | zero =>
      have := h.length_le
      omega
  | succ depth ih =>
      suffices ∀ x y, related x y → ∃ compared', compareNodes a b (depth + 1) compared x y =
          some compared' ∧ Opened a b compared' ∧ compared.length ≤ compared'.length by
        cases halike with
        | plain hnode => exact ⟨compared, compareWithin_self _ _ hnode, h, Nat.le_refl _⟩
        | array hxy => rw [compareWithin_array]; exact this _ _ hxy
        | object hxy => rw [compareWithin_object]; exact this _ _ hxy
      intro x y hxy
      rw [compareNodes]
      split
      · exact ⟨compared, rfl, h, Nat.le_refl _⟩
      · rename_i hmem
        obtain ⟨pairs, hmatch, hpairs⟩ := hrelated x y hxy
        simp only [hmatch]
        have hopened := h.cons (by simpa using hmem) hmatch
        obtain ⟨compared', hall, hopened', hlength⟩ := compareAll_progress hopened
          (fun compared p hopened hle hp => ih hopened (by simp at hle; omega) (hpairs p hp))
        exact ⟨compared', hall, hopened', Nat.le_trans (Nat.le_succ _) hlength⟩

/-- Two values stand for the same if and only if they are alike by a relation in which related
nodes match. -/
theorem valuesEq_iff : valuesEq a left b right = true ↔
    ∃ related, (∀ x y, related x y → Matched a b related x y) ∧ Alike related left right := by
  constructor
  · intro h
    obtain ⟨compared, hcompare⟩ := Option.isSome_iff_exists.mp h
    obtain ⟨hcompares, halike⟩ := compareWithin_eq_some hcompare
    exact ⟨_, fun x y hxy => (hcompares.matched (x, y) hxy).resolve_left List.not_mem_nil, halike⟩
  · rintro ⟨related, hrelated, halike⟩
    have hempty : Opened a b [] := ⟨List.nodup_nil, by simp⟩
    obtain ⟨compared, hcompare, -⟩ := compareWithin_progress hrelated hempty
      (show a.size * b.size < a.size * b.size + 1 + 0 by omega) halike
    simp [valuesEq, hcompare]

/-- Two trees stand for the same if and only if their roots do. -/
theorem structuralEq_iff : a.structuralEq b = true ↔
    ∃ related, (∀ x y, related x y → Matched a b related x y) ∧ Alike related a.root b.root :=
  valuesEq_iff

end Tree

end SyntaxPack
