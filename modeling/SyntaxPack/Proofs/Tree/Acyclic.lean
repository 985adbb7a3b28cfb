import Mathlib.Data.Finset.Card
import Mathlib.Logic.Relation
import SyntaxPack.Tree.Cycle
import SyntaxPack.Proofs.Monad
/-!
# SyntaxPack.Proofs.Tree.Acyclic

Reachability in a tree, and the search for cycles.

`Tree.Reaches` is reachability in at least one step. The search is exact:
`findCycle` finds no node if and only if no node reaches itself. Soundness rests on
the closed nodes: everything below one of them is closed too and comes to an end,
since it was closed before. Completeness rests on the open ones: each of them
reaches the node that the walk has come to.
-/

namespace SyntaxPack

namespace Tree

/-- A node refers to another one. -/
def Refers (tree : Tree) (a b : NodeId) : Prop :=
  ∃ node, tree.node? a = some node ∧ b ∈ node.references

/-- A node is reachable from another one by at least one reference. -/
def Reaches (tree : Tree) : NodeId → NodeId → Prop := Relation.TransGen tree.Refers

/-- Every path from a node comes to an end. -/
def Ends (tree : Tree) (id : NodeId) : Prop := Acc (fun b a => tree.Refers a b) id

variable {tree : Tree} {id : NodeId}

/-- A path that ends does not come back. -/
theorem Ends.not_reaches (h : tree.Ends id) : ¬ tree.Reaches id id := by
  intro hcycle
  have hacc : Acc (Relation.TransGen fun b a => tree.Refers a b) id := Acc.transGen h
  have hswap : Relation.TransGen (fun b a => tree.Refers a b) id id :=
    Relation.transGen_swap.mp hcycle
  clear h hcycle
  induction hacc with
  | intro x _ ih => exact ih x hswap hswap

/-- Paths go on only within the arena. -/
theorem Ends.of_node?_eq_none (h : tree.node? id = none) : tree.Ends id := by
  refine ⟨id, fun b hb => ?_⟩
  obtain ⟨node, hnode, -⟩ := hb
  simp [h] at hnode

/-! ### Marks

A node is unseen, opened or closed. The walk opens a node before it follows its references and
closes it afterwards, so seen from outside a walk closes some nodes and leaves the opened ones as
they were (`Closes`). The number of unseen nodes bounds its depth. -/

/-- The node has a mark. -/
def Marked (marks : Marks) (mark : Mark) (id : NodeId) : Prop := marks[id.index]? = some mark

theorem Marked.lt_size {marks : Marks} {mark : Mark} (h : Marked marks mark id) :
    id.index < marks.size :=
  (Array.getElem?_eq_some_iff.mp h).1

theorem Marked.eq_iff {marks : Marks} {mark mark' : Mark} (h : Marked marks mark id) :
    Marked marks mark' id ↔ mark = mark' := by
  rw [Marked, h, Option.some.injEq]

theorem marked_set {marks : Marks} {mark mark' : Mark} {other : NodeId}
    (h : id.index < marks.size) : Marked (marks.set! id.index mark) mark' other ↔
      if other = id then mark = mark' else Marked marks mark' other := by
  simp only [Marked, Array.set!_eq_setIfInBounds, Array.getElem?_setIfInBounds]
  by_cases heq : other = id
  · simp [heq, h]
  · have hne : id.index ≠ other.index := by
      cases id
      cases other
      simpa [eq_comm] using heq
    simp [heq, hne]

/-- The positions of the nodes that are not reached yet. -/
def unseen (marks : Marks) : Finset Nat :=
  (Finset.range marks.size).filter fun i => marks[i]? = some .unseen

theorem mem_unseen {marks : Marks} {i : Nat} :
    i ∈ unseen marks ↔ i < marks.size ∧ Marked marks .unseen ⟨i⟩ := by
  simp [unseen, Marked]

theorem card_unseen_le (marks : Marks) : (unseen marks).card ≤ marks.size := by
  have := Finset.card_filter_le (Finset.range marks.size) fun i => marks[i]? = some .unseen
  simpa [unseen] using this

/-- Opening a node leaves fewer to be reached. -/
theorem card_unseen_open {marks : Marks} (h : Marked marks .unseen id) :
    (unseen (marks.set! id.index .opened)).card < (unseen marks).card := by
  have hset : ∀ other, Marked (marks.set! id.index .opened) .unseen other → 
      other ≠ id ∧ Marked marks .unseen other := by
    intro other hother
    rw [marked_set h.lt_size] at hother
    split at hother
    · simp at hother
    · exact ⟨‹_›, hother⟩
  refine Finset.card_lt_card ((Finset.ssubset_iff_of_subset fun i hi => ?_).mpr
    ⟨id.index, mem_unseen.mpr ⟨h.lt_size, h⟩, fun hi => ?_⟩)
  · obtain ⟨hlt, hmark⟩ := mem_unseen.mp hi
    exact mem_unseen.mpr ⟨by simpa using hlt, (hset ⟨i⟩ hmark).2⟩
  · exact (hset id (mem_unseen.mp hi).2).1 rfl

/-- A walk opens no node for good and reopens none: it only closes some. -/
structure Closes (marks marks' : Marks) : Prop where
  size_eq : marks'.size = marks.size
  opened_iff : ∀ id, Marked marks' .opened id ↔ Marked marks .opened id
  closed : ∀ id, Marked marks .closed id → Marked marks' .closed id

namespace Closes

variable {marks marks' marks'' : Marks}

theorem refl (marks : Marks) : Closes marks marks := ⟨rfl, fun _ => Iff.rfl, fun _ h => h⟩

theorem trans (h₁ : Closes marks marks') (h₂ : Closes marks' marks'') : Closes marks marks'' where
  size_eq := h₂.size_eq.trans h₁.size_eq
  opened_iff id := (h₂.opened_iff id).trans (h₁.opened_iff id)
  closed id h := h₂.closed id (h₁.closed id h)

theorem card_unseen_le (h : Closes marks marks') : (unseen marks').card ≤ (unseen marks).card := by
  refine Finset.card_le_card fun i hi => ?_
  obtain ⟨hlt, hmark⟩ := mem_unseen.mp hi
  rw [h.size_eq] at hlt
  refine mem_unseen.mpr ⟨hlt, ?_⟩
  have hold : Marked marks marks[i] ⟨i⟩ := Array.getElem?_eq_getElem hlt
  cases hcase : marks[i] with
  | unseen => exact hcase ▸ hold
  | opened => exact absurd (hmark.eq_iff.mp ((h.opened_iff ⟨i⟩).mpr (hcase ▸ hold))) (by decide)
  | closed => exact absurd (hmark.eq_iff.mp (h.closed ⟨i⟩ (hcase ▸ hold))) (by decide)

/-- Opening a node, walking on and closing it closes it. -/
theorem of_open (hid : Marked marks .unseen id)
    (h : Closes (marks.set! id.index .opened) marks') :
    Closes marks (marks'.set! id.index .closed) := by
  have hlt := hid.lt_size
  have hlt' : id.index < marks'.size := by simpa [h.size_eq] using hlt
  refine ⟨by simp [h.size_eq], fun other => ?_, fun other hother => ?_⟩
  · rw [marked_set hlt']
    have hopened := h.opened_iff other
    rw [marked_set hlt] at hopened
    split
    · rename_i heq
      simp [heq, hid.eq_iff]
    · rename_i hne
      rwa [if_neg hne] at hopened
  · rw [marked_set hlt']
    have hclosed := h.closed other
    rw [marked_set hlt] at hclosed
    split
    · rfl
    · rename_i hne
      rw [if_neg hne] at hclosed
      exact hclosed hother

end Closes

/-! ### The walk

Two inductions on the depth. A walk that succeeds keeps `ClosedEnds`, provided there is depth enough
for all unseen nodes; a walk that fails has come to an opened node, and the opened nodes are those
on the way from the start. -/

/-- What a walk from a node does if it succeeds. -/
theorem walkFrom_eq_ok {depth : Nat} {marks marks' : Marks}
    (h : walkFrom tree (depth + 1) marks id = .ok marks') :
    (∃ node walked, Marked marks .unseen id ∧ tree.node? id = some node ∧
      node.references.foldlM (walkFrom tree depth) (marks.set! id.index .opened) = .ok walked ∧
      marks' = walked.set! id.index .closed) ∨
    (marks' = marks ∧ (Marked marks .closed id ∨ marks.size ≤ id.index ∨ tree.node? id = none)) := by
  simp only [walkFrom] at h
  split at h
  · simp at h
  · rename_i node hmark hnode
    obtain ⟨walked, hwalked, h₁⟩ := bind_eq_ok.mp h
    simp only [Except.ok.injEq] at h₁
    exact Or.inl ⟨node, walked, hmark, hnode, hwalked, h₁.symm⟩
  · rename_i hopened hunseen
    simp only [Except.ok.injEq] at h
    refine Or.inr ⟨h.symm, ?_⟩
    cases hmark : marks[id.index]? with
    | none => exact Or.inr (Or.inl (Array.getElem?_eq_none_iff.mp hmark))
    | some mark =>
        cases mark with
        | closed => exact Or.inl hmark
        | opened => exact absurd hmark hopened
        | unseen =>
            cases hnode : tree.node? id with
            | none => exact Or.inr (Or.inr rfl)
            | some node => exact absurd hnode (hunseen node hmark)

theorem walkFrom_closes {depth : Nat} {marks marks' : Marks}
    (h : walkFrom tree depth marks id = .ok marks') : Closes marks marks' := by
  induction depth generalizing marks marks' id with
  | zero =>
      simp only [walkFrom, Except.ok.injEq] at h
      exact h ▸ .refl marks
  | succ depth ih =>
      rcases walkFrom_eq_ok h with ⟨node, walked, hmark, -, hwalked, rfl⟩ | ⟨rfl, -⟩
      · exact .of_open hmark (foldlM_induction (motive := fun _ m => Closes _ m) hwalked
          (.refl _) fun _ _ _ _ _ _ hm hstep => hm.trans (ih hstep))
      · exact .refl _

theorem foldlM_walkFrom_closes {depth : Nat} {ids : List NodeId} {marks marks' : Marks}
    (h : ids.foldlM (walkFrom tree depth) marks = .ok marks') : Closes marks marks' :=
  foldlM_induction (motive := fun _ m => Closes marks m) h (.refl marks)
    fun _ _ _ _ _ _ hm hstep => hm.trans (walkFrom_closes hstep)

/-- Every path from a closed node ends. -/
def ClosedEnds (tree : Tree) (marks : Marks) : Prop :=
  ∀ id, Marked marks .closed id → tree.Ends id

/-- A walk from a node keeps that paths from closed nodes end, and closes the node. -/
def ClosesSoundly (tree : Tree) (depth : Nat) : Prop :=
  ∀ {marks marks' : Marks} {id : NodeId}, walkFrom tree depth marks id = .ok marks' →
    (unseen marks).card < depth → marks.size = tree.size → tree.ClosedEnds marks →
    tree.ClosedEnds marks' ∧ (id.index < tree.size → Marked marks' .closed id)

/-- Walks from several nodes close all of them. -/
theorem ClosesSoundly.foldlM {depth : Nat} (hwalk : tree.ClosesSoundly depth) {ids : List NodeId}
    {marks marks' : Marks} (h : ids.foldlM (walkFrom tree depth) marks = .ok marks')
    (hdepth : (unseen marks).card < depth) (hsize : marks.size = tree.size)
    (hends : tree.ClosedEnds marks) :
    tree.ClosedEnds marks' ∧ ∀ id ∈ ids, id.index < tree.size → Marked marks' .closed id := by
  refine (foldlM_induction (motive := fun done m => Closes marks m ∧ tree.ClosedEnds m ∧
    ∀ id ∈ done, id.index < tree.size → Marked m .closed id) h ⟨.refl marks, hends, by simp⟩ ?_).2
  intro done b _ m m' _ ⟨hcloses, hmends, hdone⟩ hstep
  have hcard := hcloses.card_unseen_le
  obtain ⟨hends', hb⟩ := hwalk hstep (by omega) (hcloses.size_eq.trans hsize) hmends
  have hm' := walkFrom_closes hstep
  refine ⟨hcloses.trans hm', hends', fun c hc hlt => ?_⟩
  rcases List.mem_append.mp hc with hc | hc
  · exact hm'.closed c (hdone c hc hlt)
  · obtain rfl := List.mem_singleton.mp hc
    exact hb hlt

/-- If there is room for all nodes that are not reached yet, a walk from a node closes
it, and every path from a closed node ends. -/
theorem closesSoundly (depth : Nat) : tree.ClosesSoundly depth := by
  induction depth with
  | zero => exact fun _ hdepth => absurd hdepth (Nat.not_lt_zero _)
  | succ depth ih =>
      intro marks marks' id h hdepth hsize hends
      rcases walkFrom_eq_ok h with ⟨node, walked, hmark, hnode, hwalked, rfl⟩ | ⟨rfl, hskip⟩
      · have hlt := hmark.lt_size
        have hcard := card_unseen_open hmark
        have hopen : tree.ClosedEnds (marks.set! id.index .opened) := by
          intro other hother
          rw [marked_set hlt] at hother
          split at hother
          · simp at hother
          · exact hends other hother
        -- once the references have been walked, all of them are closed or lead nowhere
        have hcloses := foldlM_walkFrom_closes hwalked
        obtain ⟨hwalkedEnds, hreferences⟩ :=
          ih.foldlM hwalked (by omega) (by simpa using hsize) hopen
        have hltWalked : id.index < walked.size := by simpa [hcloses.size_eq] using hlt
        have hid : tree.Ends id := by
          refine ⟨id, fun b hb => ?_⟩
          obtain ⟨node', hnode', hmem⟩ := hb
          obtain rfl : node = node' := Option.some.inj (hnode ▸ hnode')
          rcases Nat.lt_or_ge b.index tree.size with hblt | hbge
          · exact hwalkedEnds b (hreferences b hmem hblt)
          · exact Ends.of_node?_eq_none (Array.getElem?_eq_none_iff.mpr hbge)
        refine ⟨fun other hother => ?_, fun _ => by rw [marked_set hltWalked, if_pos rfl]⟩
        rw [marked_set hltWalked] at hother
        split at hother
        · rename_i heq
          exact heq ▸ hid
        · exact hwalkedEnds other hother
      · refine ⟨hends, fun hlt => ?_⟩
        rcases hskip with hclosed | hge | hnone
        · exact hclosed
        · omega
        · exact absurd hlt (Nat.not_lt.mpr (Array.getElem?_eq_none_iff.mp hnone))

/-- A walk fails at a node that reaches itself, if the open nodes reach where the walk
starts. -/
theorem walkFrom_error {depth : Nat} {marks : Marks} {found : NodeId}
    (h : walkFrom tree depth marks id = .error found)
    (hopened : ∀ other, Marked marks .opened other → tree.Reaches other id) :
    tree.Reaches found found := by
  induction depth generalizing marks id with
  | zero => simp [walkFrom] at h
  | succ depth ih =>
      simp only [walkFrom] at h
      split at h
      · rename_i hmark
        simp only [Except.error.injEq] at h
        subst h
        exact hopened id hmark
      · rename_i node hmark hnode
        rcases bind_eq_error.mp h with hfold | ⟨_, -, h₁⟩
        · obtain ⟨done, b, rest, m, hsplit, hdone, hb⟩ := foldlM_eq_error hfold
          have hrefers : tree.Refers id b := ⟨node, hnode, by simp [hsplit]⟩
          have hcloses := foldlM_walkFrom_closes hdone
          refine ih hb fun other hother => ?_
          rw [hcloses.opened_iff, marked_set (Marked.lt_size hmark)] at hother
          split at hother
          · rename_i heq
            exact heq ▸ .single hrefers
          · exact (hopened other hother).tail hrefers
        · simp at h₁
      · simp at h

/-! ### The search

The search walks from every node of the arena in turn, with the marks of the walks before. At its
end every node is closed, or one was found on a cycle. -/

/-- Before the search no node is reached. -/
theorem marked_replicate {mark : Mark} {size : Nat}
    (h : Marked (Array.replicate size .unseen) mark id) : mark = .unseen := by
  have hlt : id.index < size := by simpa using h.lt_size
  simpa [Marked, Array.getElem?_replicate, hlt] using h.symm

/-- A node that is found is on a cycle. -/
theorem reaches_of_findCycle {found : NodeId} (h : tree.findCycle = some found) :
    tree.Reaches found found := by
  simp only [findCycle] at h
  split at h
  · simp at h
  · rename_i reported hwalk
    obtain rfl := Option.some.inj h
    obtain ⟨done, b, rest, m, -, hdone, hb⟩ := foldlM_eq_error hwalk
    have hcloses := foldlM_walkFrom_closes hdone
    refine walkFrom_error hb fun other hother => ?_
    exact absurd (marked_replicate ((hcloses.opened_iff other).mp hother)) (by decide)

/-- No node that is found is not on a cycle, and no cycle is missed. -/
theorem findCycle_eq_none_iff : tree.findCycle = none ↔ ∀ id, ¬ tree.Reaches id id := by
  constructor
  · intro h id
    simp only [findCycle] at h
    split at h
    · rename_i marks hwalk
      have hcard := card_unseen_le (Array.replicate tree.size .unseen)
      rw [Array.size_replicate] at hcard
      obtain ⟨hends, hclosed⟩ := ClosesSoundly.foldlM (closesSoundly _) hwalk (by omega)
        (by simp) fun other hother => absurd (marked_replicate hother) (by decide)
      refine Ends.not_reaches ?_
      rcases Nat.lt_or_ge id.index tree.size with hlt | hge
      · refine hends id (hclosed id ?_ hlt)
        exact List.mem_map.mpr ⟨id.index, List.mem_range.mpr hlt, rfl⟩
      · exact Ends.of_node?_eq_none (Array.getElem?_eq_none_iff.mpr hge)
    · simp at h
  · intro h
    cases hfound : tree.findCycle with
    | none => rfl
    | some found => exact absurd (reaches_of_findCycle hfound) (h found)

/-- Two pairs, one in the other: `(1, (2, null))`. -/
def pairs : Tree where
  nodes := #[.object ⟨"Pair", [("left", .number ⟨0x4000000000000000⟩), ("next", .null)]⟩,
    .object ⟨"Pair", [("left", .number ⟨0x3ff0000000000000⟩), ("next", .object ⟨0⟩)]⟩]
  root := .object ⟨1⟩

theorem pairs_acyclic (id : NodeId) : ¬ pairs.Reaches id id :=
  findCycle_eq_none_iff.mp (by decide) id

/-- A list that holds two copies of a pair in a pair. -/
def copiedPairs : Tree where
  nodes := #[.object ⟨"Pair", [("left", .number ⟨0x4000000000000000⟩)]⟩,
    .object ⟨"Pair", [("left", .number ⟨0x3ff0000000000000⟩), ("next", .object ⟨0⟩)]⟩,
    .object ⟨"Pair", [("left", .number ⟨0x4000000000000000⟩), ("next", .null)]⟩,
    .object ⟨"Pair", [("left", .number ⟨0x3ff0000000000000⟩), ("next", .object ⟨2⟩)]⟩,
    .array [.object ⟨1⟩, .object ⟨3⟩]]
  root := .array ⟨4⟩

theorem copiedPairs_acyclic (id : NodeId) : ¬ copiedPairs.Reaches id id :=
  findCycle_eq_none_iff.mp (by decide) id

end Tree

end SyntaxPack
