import SyntaxPack.Proofs.Halting
import SyntaxPack.Proofs.Tree.Acyclic
/-!
# SyntaxPack.Proofs.Tree.Search

The search for cycles as a loop.

A `Search` keeps the open nodes on a path, each with the number of its children that were looked
at. A step looks at one child of the last node of the path: it opens a child that was not reached,
passes over one that is closed or leads out of the arena, and has found a cycle if the child is
open. When all children were looked at, the node is closed and leaves the path.

Nothing bounds the number of steps. Still the loop halts, and with what `findCycle` returns: the
walk from a node is a finite path of steps, which puts the node on the path and takes it off again.
-/

namespace SyntaxPack

namespace Tree

/-- A search for a cycle. -/
structure Search where
  /-- How far the search is with every node. -/
  marks : Marks
  /-- The open nodes, the last one first, and how many children of each were looked at. -/
  path : List (NodeId × Nat)
  /-- The nodes from which the search may still start. -/
  starts : List NodeId

namespace Search

/-- A search that has not begun. -/
def start (tree : Tree) : Search := ⟨.replicate tree.size .unseen, [], tree.ids⟩

/-- A step of a search. -/
def step (tree : Tree) (search : Search) : Search ⊕ Option NodeId :=
  match search.path with
  | [] =>
    match search.starts with
    | [] => .inr none
    | id :: starts =>
      if search.marks[id.index]? = some .unseen then
        .inl ⟨search.marks.set! id.index .opened, [(id, 0)], starts⟩
      else .inl ⟨search.marks, [], starts⟩
  | (id, looked) :: path =>
    match (tree.node? id).bind (·.children[looked]?) with
    | none => .inl ⟨search.marks.set! id.index .closed, path, search.starts⟩
    | some child =>
      match child.node? with
      | none => .inl ⟨search.marks, (id, looked + 1) :: path, search.starts⟩
      | some next =>
        match search.marks[next.index]? with
        | some .opened => .inr (some next)
        | some .unseen =>
          .inl ⟨search.marks.set! next.index .opened, (next, 0) :: (id, looked + 1) :: path,
            search.starts⟩
        | _ => .inl ⟨search.marks, (id, looked + 1) :: path, search.starts⟩

variable {tree : Tree} {marks : Marks} {id next found : NodeId} {node : Node} {child : Value}
  {looked depth : Nat} {path : List (NodeId × Nat)} {starts : List NodeId} {s t : Search}

/-! ### One step -/

/-- A node without further children is closed. -/
theorem step_leave (hnode : tree.node? id = some node) (hlooked : node.children[looked]? = none) :
    step tree ⟨marks, (id, looked) :: path, starts⟩ =
      .inl ⟨marks.set! id.index .closed, path, starts⟩ := by
  simp only [step, hnode, Option.bind_some, hlooked]

section Child

variable (hnode : tree.node? id = some node) (hchild : node.children[looked]? = some child)
include hnode hchild

theorem step_plain (hplain : child.node? = none) :
    step tree ⟨marks, (id, looked) :: path, starts⟩ =
      .inl ⟨marks, (id, looked + 1) :: path, starts⟩ := by
  simp only [step, hnode, Option.bind_some, hchild, hplain]

variable (hnext : child.node? = some next)
include hnext

/-- A child that is open closes a cycle. -/
theorem step_found (hmark : Marked marks .opened next) :
    step tree ⟨marks, (id, looked) :: path, starts⟩ = .inr (some next) := by
  rw [Marked] at hmark
  simp only [step, hnode, Option.bind_some, hchild, hnext, hmark]

/-- A child that was not reached is opened. -/
theorem step_enter (hmark : Marked marks .unseen next) :
    step tree ⟨marks, (id, looked) :: path, starts⟩ =
      .inl ⟨marks.set! next.index .opened, (next, 0) :: (id, looked + 1) :: path, starts⟩ := by
  rw [Marked] at hmark
  simp only [step, hnode, Option.bind_some, hchild, hnext, hmark]

theorem step_pass (hopened : ¬ Marked marks .opened next) (hunseen : ¬ Marked marks .unseen next) :
    step tree ⟨marks, (id, looked) :: path, starts⟩ =
      .inl ⟨marks, (id, looked + 1) :: path, starts⟩ := by
  rw [Marked] at hopened hunseen
  simp only [step, hnode, Option.bind_some, hchild, hnext]

end Child

/-! ### A walk in steps -/

/-- A search does what a walk does: it goes on with the marks that the walk leaves, or finds what
the walk reports. -/
def Follows (tree : Tree) (search : Search) (path : List (NodeId × Nat)) (starts : List NodeId) :
    Except NodeId Marks → Prop
  | .ok marks => Continues (step tree) search ⟨marks, path, starts⟩
  | .error found => Halts (step tree) search (some found)

theorem Follows.of_continues {outcome : Except NodeId Marks} (h : Continues (step tree) s t)
    (ht : Follows tree t path starts outcome) : Follows tree s path starts outcome := by
  cases outcome with
  | ok marks => exact Continues.trans h ht
  | error found => exact h.halts ht

/-- A search that does what one walk does, and then what another one does. -/
theorem Follows.bind {outcome : Except NodeId Marks} {rest : Marks → Except NodeId Marks}
    {path' : List (NodeId × Nat)} {starts' : List NodeId} (h : Follows tree s path starts outcome)
    (hrest : ∀ marks, outcome = .ok marks →
      Follows tree ⟨marks, path, starts⟩ path' starts' (rest marks)) :
    Follows tree s path' starts' (outcome >>= rest) := by
  cases outcome with
  | ok marks => exact (hrest marks rfl).of_continues h
  | error found => exact h

/-- Looking at a child does what the walk from it does, if there is room for all nodes that are
not reached yet. -/
def FollowsWalk (tree : Tree) (depth : Nat) : Prop :=
  ∀ {marks : Marks} {id next : NodeId} {node : Node} {child : Value} {looked : Nat}
    (path : List (NodeId × Nat)) (starts : List NodeId), tree.node? id = some node →
    node.children[looked]? = some child → child.node? = some next → marks.size = tree.size →
    (unseen marks).card < depth →
    Follows tree ⟨marks, (id, looked) :: path, starts⟩ ((id, looked + 1) :: path) starts
      (walkFrom tree depth marks next)

/-- Looking at the children that are left, and closing the node, does what the walks from them do.
-/
theorem FollowsWalk.children (hwalk : FollowsWalk tree depth) (hnode : tree.node? id = some node)
    {rest : List Value} (hrest : node.children.drop looked = rest)
    (hsize : marks.size = tree.size) (hcard : (unseen marks).card < depth) :
    Follows tree ⟨marks, (id, looked) :: path, starts⟩ path starts
      ((rest.filterMap Value.node?).foldlM (walkFrom tree depth) marks >>= fun walked =>
        .ok (walked.set! id.index .closed)) := by
  induction rest generalizing marks looked with
  | nil => exact .single (step_leave hnode (List.getElem?_eq_none (List.drop_eq_nil_iff.mp hrest)))
  | cons child rest ih =>
      have hchild : node.children[looked]? = some child := by
        rw [← List.head?_drop, hrest, List.head?_cons]
      have hrest' : node.children.drop (looked + 1) = rest := by
        rw [← List.tail_drop, hrest, List.tail_cons]
      cases hnext : child.node? with
      | none =>
          rw [List.filterMap_cons_none hnext]
          exact (ih hrest' hsize hcard).of_continues (.single (step_plain hnode hchild hnext))
      | some next =>
          rw [List.filterMap_cons_some hnext, List.foldlM_cons, bind_assoc]
          refine (hwalk path starts hnode hchild hnext hsize hcard).bind fun walked hwalked => ?_
          have hcloses := walkFrom_closes hwalked
          exact ih hrest' (hcloses.size_eq.trans hsize)
            (Nat.lt_of_le_of_lt hcloses.card_unseen_le hcard)

/-- Once a node is opened, the search does what the walk from it does. -/
theorem FollowsWalk.opened (hwalk : FollowsWalk tree depth) (hnode : tree.node? id = some node)
    (hmark : Marked marks .unseen id) (hsize : marks.size = tree.size)
    (hcard : (unseen marks).card < depth + 1) :
    Follows tree ⟨marks.set! id.index .opened, (id, 0) :: path, starts⟩ path starts
      (walkFrom tree (depth + 1) marks id) := by
  have hroom : (unseen (marks.set! id.index .opened)).card < depth :=
    Nat.lt_of_lt_of_le (card_unseen_open hmark) (Nat.le_of_lt_succ hcard)
  rw [Marked] at hmark
  simp only [walkFrom, hmark, hnode]
  exact hwalk.children hnode List.drop_zero (by simpa using hsize) hroom

/-- A walk that comes to a node that is closed or not in the arena leaves the marks as they are. -/
theorem walkFrom_of_passed (hopened : ¬ Marked marks .opened id)
    (hunseen : ¬ Marked marks .unseen id) : walkFrom tree (depth + 1) marks id = .ok marks := by
  rw [Marked] at hopened hunseen
  rw [walkFrom]
  split
  · contradiction
  · contradiction
  · rfl

/-- However deep it is, a walk is followed step by step. -/
theorem followsWalk (depth : Nat) : FollowsWalk tree depth := by
  induction depth with
  | zero =>
      intro marks id next node child looked path starts hnode hchild hnext hsize hcard
      exact absurd hcard (Nat.not_lt_zero _)
  | succ depth ih =>
      intro marks id next node child looked path starts hnode hchild hnext hsize hcard
      by_cases hopened : Marked marks .opened next
      · have hwalk : walkFrom tree (depth + 1) marks next = .error next := by
          rw [Marked] at hopened
          simp only [walkFrom, hopened]
        rw [hwalk]
        exact .answer (step_found hnode hchild hnext hopened)
      · by_cases hunseen : Marked marks .unseen next
        · obtain ⟨node', hnode'⟩ : ∃ node, tree.node? next = some node :=
            Option.isSome_iff_exists.mp (by simpa [node?, size, hsize] using hunseen.lt_size)
          exact (ih.opened hnode' hunseen hsize hcard).of_continues
            (.single (step_enter hnode hchild hnext hunseen))
        · rw [walkFrom_of_passed hopened hunseen]
          exact .single (step_pass hnode hchild hnext hopened hunseen)

/-- Starting from the nodes that are left does what the walks from them do. -/
theorem follows_starts (hsize : marks.size = tree.size)
    (hopened : ∀ id, ¬ Marked marks .opened id) :
    Follows tree ⟨marks, [], starts⟩ [] [] (starts.foldlM (walkFrom tree (tree.size + 1)) marks) := by
  induction starts generalizing marks with
  | nil => exact .refl _
  | cons id starts ih =>
      have hfirst : Follows tree ⟨marks, [], id :: starts⟩ [] starts
          (walkFrom tree (tree.size + 1) marks id) := by
        by_cases hunseen : Marked marks .unseen id
        · have hstep : step tree ⟨marks, [], id :: starts⟩ =
              .inl ⟨marks.set! id.index .opened, [(id, 0)], starts⟩ := by
            rw [Marked] at hunseen
            simp only [step, hunseen, if_true]
          obtain ⟨node, hnode⟩ : ∃ node, tree.node? id = some node :=
            Option.isSome_iff_exists.mp (by simpa [node?, size, hsize] using hunseen.lt_size)
          have hcard : (unseen marks).card < tree.size + 1 :=
            Nat.lt_succ_of_le (hsize ▸ card_unseen_le marks)
          exact (FollowsWalk.opened (followsWalk tree.size) hnode hunseen hsize hcard).of_continues
            (.single hstep)
        · have hstep : step tree ⟨marks, [], id :: starts⟩ = .inl ⟨marks, [], starts⟩ := by
            rw [Marked] at hunseen
            simp only [step, if_neg hunseen]
          rw [walkFrom_of_passed (hopened id) hunseen]
          exact .single hstep
      rw [List.foldlM_cons]
      refine hfirst.bind fun walked hwalked => ?_
      have hcloses := walkFrom_closes hwalked
      exact ih (hcloses.size_eq.trans hsize) fun other hother =>
        hopened other ((hcloses.opened_iff other).mp hother)

/-- The search halts, and what it comes to is what the walks from all nodes come to. -/
theorem halts_findCycle (tree : Tree) : Halts (step tree) (start tree) tree.findCycle := by
  have hfollows : Follows tree (start tree) [] []
      (tree.ids.foldlM (walkFrom tree (tree.size + 1)) (.replicate tree.size .unseen)) :=
    follows_starts Array.size_replicate fun id hid => absurd (marked_replicate hid) (by decide)
  simp only [findCycle]
  split
  · rename_i marks hwalk
    rw [hwalk] at hfollows
    exact hfollows.halts (.answer rfl)
  · rename_i found hwalk
    rwa [hwalk] at hfollows

end Search

/-- Searching for a cycle comes to an end, finds a node if and only if some node reaches itself,
and a node that is found does. -/
theorem findCycle_exact (tree : Tree) :
    (∀ answer, Halts (Search.step tree) (Search.start tree) answer ↔ answer = tree.findCycle) ∧
      (tree.findCycle = none ↔ ∀ id, ¬ tree.Reaches id id) ∧
      ∀ id, tree.findCycle = some id → tree.Reaches id id := by
  refine ⟨fun answer => ⟨fun h => h.unique (Search.halts_findCycle tree), ?_⟩,
    findCycle_eq_none_iff, fun id => reaches_of_findCycle⟩
  intro heq
  subst heq
  exact Search.halts_findCycle tree

/-- Two pairs that refer to each other, and a list that they do not lead to. The list refers twice
to one array and once out of the arena. -/
def facingPairs : Tree where
  nodes := #[.array [.array ⟨1⟩, .array ⟨1⟩, .array ⟨7⟩], .array [],
    .object ⟨"Pair", [("left", .null), ("next", .object ⟨3⟩)]⟩,
    .object ⟨"Pair", [("next", .object ⟨2⟩)]⟩]
  root := .object ⟨3⟩

/-- What is shared is no cycle. The first of the pairs is found. -/
theorem facingPairs_reaches :
    facingPairs.findCycle = some ⟨2⟩ ∧ facingPairs.Reaches ⟨2⟩ ⟨2⟩ := by
  have hfound : facingPairs.findCycle = some ⟨2⟩ := by decide
  exact ⟨hfound, (findCycle_exact facingPairs).2.2 ⟨2⟩ hfound⟩

end Tree

end SyntaxPack
