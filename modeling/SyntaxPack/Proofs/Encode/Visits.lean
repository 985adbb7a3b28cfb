import SyntaxPack.Proofs.Firsts
import SyntaxPack.Tree.Basic
/-!
# SyntaxPack.Proofs.Encode.Visits

The order in which a walk meets values.

A walk goes down into a node when it meets it for the first time. `Visits` relates the
values it is to walk to all values that it meets on the way, repetitions included, and to
the nodes that it opens and closes. What depends on the numbering of nodes and on what is
shared in a tree can be taken out of this: the first occurrences are those of the tree
unfolded, in which every node is gone into whenever it is met, and every value is met as
often as it stands in the slots of the nodes that are opened.

The relation is inductive, with a case for a value that leads to nothing new and a case for a node
that is gone into, so every result is an induction with these two cases. The results are:

* what is met, as a multiset: the values to be walked and the slots of the opened nodes (`perm`);
* what is opened: the nodes in the order in which they are met (`opened_eq`);
* how opening and closing are related, by numbers of the nodes (`pairwise_opened`);
* what is met first: the same as in the unfolded tree (`eraseDups_eq`).

The last needs the numbers, too. The unfolded tree may be infinite, so it is cut off at a depth,
and numbers that fall from a node to its children make every depth above them sufficient.
-/

namespace SyntaxPack

/-- A walk that has met the values `before` is to walk `values`. It meets the values `visited`,
repetitions included, and goes down into the nodes `opened`, which it leaves in the order of
`closed`. A value that refers to a node is skipped just if it was met before. -/
inductive Visits (slots : NodeId → List Value) :
    List Value → List Value → List Value → List NodeId → List NodeId → Prop
  | nil {before : List Value} : Visits slots before [] [] [] []
  | skip {before values visited : List Value} {opened closed : List NodeId} {value : Value}
      (known : ∀ id, value.node? = some id → value ∈ before)
      (rest : Visits slots (before ++ [value]) values visited opened closed) :
      Visits slots before (value :: values) (value :: visited) opened closed
  | enter {before values inner visited : List Value} {value : Value} {id : NodeId}
      {opened opened' closed closed' : List NodeId} (node : value.node? = some id)
      (new : value ∉ before)
      (below : Visits slots (before ++ [value]) (slots id) inner opened closed)
      (rest : Visits slots (before ++ value :: inner) values visited opened' closed') :
      Visits slots before (value :: values) (value :: inner ++ visited) (id :: opened ++ opened')
        (closed ++ id :: closed')

namespace Visits

variable {slots : NodeId → List Value} {before values visited visited' : List Value}
  {opened opened' closed closed' : List NodeId} {value : Value} {id : NodeId}

/-- Values are walked one after another. -/
theorem cons (h : Visits slots before [value] visited opened closed)
    (hrest : Visits slots (before ++ visited) values visited' opened' closed') :
    Visits slots before (value :: values) (visited ++ visited') (opened ++ opened')
      (closed ++ closed') := by
  cases h with
  | skip known rest =>
      cases rest
      exact .skip known hrest
  | enter node new below rest =>
      cases rest
      rw [List.append_nil] at hrest
      simpa using Visits.enter node new below hrest

/-- Going down into a single node. -/
theorem single (hnode : value.node? = some id) (hnew : value ∉ before)
    (h : Visits slots (before ++ [value]) (slots id) visited opened closed) :
    Visits slots before [value] (value :: visited) (id :: opened) (closed ++ [id]) := by
  simpa using Visits.enter hnode hnew h .nil

/-- All values to be walked are met. -/
theorem subset (h : Visits slots before values visited opened closed) : values ⊆ visited := by
  induction h with
  | nil => exact List.Subset.refl []
  | skip _ _ ih => exact List.cons_subset_cons _ ih
  | enter _ _ _ _ _ ih =>
      intro value hvalue
      rcases List.mem_cons.mp hvalue with rfl | hvalue
      · exact List.mem_cons_self
      · exact List.mem_append_right _ (ih hvalue)

/-! ### How often values are met

Sharing shows here: a node that is used twice is met twice, but what it holds is met once. -/

/-- A value is met as often as it is to be walked and as it stands in the opened nodes. -/
theorem perm (h : Visits slots before values visited opened closed) :
    visited.Perm (values ++ opened.flatMap slots) := by
  induction h with
  | nil => exact .refl []
  | skip _ _ ih => exact ih.cons _
  -- The slots of the node come before the values that are left, and have to be moved behind them.
  | @enter before values inner visited value id opened opened' closed closed' _ _ _ _ ihBelow ih =>
      have hmoved : (slots id ++ opened.flatMap slots ++ (values ++ opened'.flatMap slots)).Perm
          (values ++ (slots id ++ opened.flatMap slots ++ opened'.flatMap slots)) := by
        rw [← List.append_assoc, ← List.append_assoc values]
        exact List.perm_append_comm.append_right _
      calc
        (value :: inner ++ visited).Perm
            (value :: (slots id ++ opened.flatMap slots) ++ (values ++ opened'.flatMap slots)) :=
          (ihBelow.cons value).append ih
        _ |>.Perm (value :: values ++ (id :: opened ++ opened').flatMap slots) := by
          simpa using hmoved

/-- Every node that is opened is closed. -/
theorem closed_perm (h : Visits slots before values visited opened closed) :
    closed.Perm opened := by
  induction h with
  | nil => exact .refl []
  | skip _ _ ih => exact ih
  | enter _ _ _ _ ihBelow ih =>
      exact List.perm_middle.trans ((ihBelow.append ih).cons _)

/-- A node is opened when a value that refers to it is met. -/
theorem exists_of_opened (h : Visits slots before values visited opened closed)
    (hid : id ∈ opened) : ∃ value ∈ visited, value.node? = some id := by
  induction h with
  | nil => exact absurd hid List.not_mem_nil
  | skip _ _ ih =>
      obtain ⟨value, hvalue, hnode⟩ := ih hid
      exact ⟨value, List.mem_cons_of_mem _ hvalue, hnode⟩
  | enter node _ _ _ ihBelow ih =>
      rcases List.mem_append.mp hid with hid | hid
      · rcases List.mem_cons.mp hid with rfl | hid
        · exact ⟨_, List.mem_append_left _ List.mem_cons_self, node⟩
        · obtain ⟨value, hvalue, hnode⟩ := ihBelow hid
          exact ⟨value, List.mem_append_left _ (List.mem_cons_of_mem _ hvalue), hnode⟩
      · obtain ⟨value, hvalue, hnode⟩ := ih hid
        exact ⟨value, List.mem_append_right _ hvalue, hnode⟩

/-- Nodes are opened in the order in which they are met, if one kind of value refers to each. -/
theorem opened_eq (h : Visits slots before values visited opened closed)
    (hkind : ∀ left ∈ before ++ visited, ∀ right ∈ before ++ visited, ∀ id, left.node? = some id →
      right.node? = some id → left = right) :
    ((before ++ visited).filterMap Value.node?).eraseDups =
      (before.filterMap Value.node?).eraseDups ++ opened := by
  induction h with
  | nil => simp
  | @skip before values visited opened closed value hknown hrest ih =>
      rw [← List.append_cons] at ih
      rw [ih hkind, List.filterMap_append]
      refine congrArg (· ++ opened) (Firsts.eraseDups_append_of_subset fun id hid => ?_)
      obtain ⟨other, hother, hnode⟩ := List.mem_filterMap.mp hid
      obtain rfl := List.mem_singleton.mp hother
      exact List.mem_filterMap.mpr ⟨other, hknown id hnode, hnode⟩
  | @enter before values inner visited value id opened opened' closed closed' hnode hnew _ _ ihBelow ih =>
      have hsplit : before ++ (value :: inner ++ visited) = before ++ value :: inner ++ visited :=
        (List.append_assoc before (value :: inner) visited).symm
      rw [hsplit] at hkind ⊢
      have hinner : before ++ [value] ++ inner = before ++ value :: inner :=
        (List.append_cons before value inner).symm
      have hfresh : id ∉ before.filterMap Value.node? := by
        intro hid
        obtain ⟨other, hother, hother'⟩ := List.mem_filterMap.mp hid
        have heq := hkind value (by simp) other (by simp [hother]) id hnode hother'
        exact hnew (heq ▸ hother)
      rw [hinner] at ihBelow
      have hbelow := ihBelow fun left hleft right hright =>
        hkind left (List.mem_append_left _ hleft) right (List.mem_append_left _ hright)
      have hself : (before ++ [value]).filterMap Value.node? = before.filterMap Value.node? ++ [id] := by
        simp [List.filterMap_append, hnode]
      rw [ih hkind, hbelow, hself, Firsts.eraseDups_snoc, if_neg hfresh]
      simp

/-! ### Numbered nodes

Numbers stand for the height of a node. They are only known to fall from nodes to their children, so
any such numbering will do. -/

/-- A numbering of some nodes, in which the nodes in their slots have smaller numbers. -/
structure Descends (slots : NodeId → List Value) (known : NodeId → Prop) (rank : NodeId → Nat) :
    Prop where
  child_known : ∀ id, known id → ∀ value ∈ slots id, ∀ child, value.node? = some child → known child
  child_lt : ∀ id, known id → ∀ value ∈ slots id, ∀ child, value.node? = some child →
    rank child < rank id

/-- Nodes among values have numbers below a bound. -/
def Below (known : NodeId → Prop) (rank : NodeId → Nat) (bound : Nat) (values : List Value) : Prop :=
  ∀ value ∈ values, ∀ id, value.node? = some id → known id ∧ rank id < bound

variable {known : NodeId → Prop} {rank : NodeId → Nat} {bound : Nat}

theorem Below.mono {bound' : Nat} (h : Below known rank bound values) (hle : bound ≤ bound') :
    Below known rank bound' values :=
  fun value hvalue id hid => (h value hvalue id hid).imp_right fun hlt => Nat.lt_of_lt_of_le hlt hle

theorem Descends.below (h : Descends slots known rank) (hid : known id) :
    Below known rank (rank id) (slots id) :=
  fun value hvalue child hchild => ⟨h.child_known id hid value hvalue child hchild,
    h.child_lt id hid value hvalue child hchild⟩

theorem below_cons : Below known rank bound (value :: values) ↔
    (∀ id, value.node? = some id → known id ∧ rank id < bound) ∧ Below known rank bound values :=
  List.forall_mem_cons

theorem below_append {values' : List Value} : Below known rank bound (values ++ values') ↔
    Below known rank bound values ∧ Below known rank bound values' :=
  List.forall_mem_append

/-- What is walked and what is opened stays below the bound of the values to be walked. -/
theorem visited_below (h : Visits slots before values visited opened closed)
    (hdescends : Descends slots known rank) (hvalues : Below known rank bound values) :
    Below known rank bound visited ∧ ∀ id ∈ opened, rank id < bound := by
  induction h generalizing bound with
  | nil => exact ⟨hvalues, by simp⟩
  | skip _ _ ih =>
      obtain ⟨hvalue, hvalues⟩ := below_cons.mp hvalues
      obtain ⟨hvisited, hopened⟩ := ih hvalues
      exact ⟨below_cons.mpr ⟨hvalue, hvisited⟩, hopened⟩
  | @enter before values inner visited value id opened opened' closed closed' hnode _ _ _ ihBelow ih =>
      obtain ⟨hvalue, hvalues⟩ := below_cons.mp hvalues
      obtain ⟨hid, hlt⟩ := hvalue id hnode
      obtain ⟨hinner, hopened⟩ := ihBelow (hdescends.below hid)
      obtain ⟨hvisited, hopened'⟩ := ih hvalues
      refine ⟨below_append.mpr ⟨below_cons.mpr ⟨hvalue, hinner.mono (Nat.le_of_lt hlt)⟩, hvisited⟩,
        fun x hx => ?_⟩
      rcases List.mem_append.mp hx with hx | hx
      · rcases List.mem_cons.mp hx with rfl | hx
        · exact hlt
        · exact Nat.lt_trans (hopened x hx) hlt
      · exact hopened' x hx

/-- A node that is opened before another one has the larger number, since the other one is
below it, or is closed before it. -/
theorem pairwise_opened (h : Visits slots before values visited opened closed)
    (hdescends : Descends slots known rank) (hvalues : Below known rank bound values)
    (hnodup : closed.Nodup) :
    opened.Pairwise fun x y => rank y < rank x ∨ closed.idxOf x < closed.idxOf y := by
  induction h generalizing bound with
  | nil => exact .nil
  | skip _ _ ih => exact ih (below_cons.mp hvalues).2 hnodup
  | @enter before values inner visited value id opened opened' closed closed' hnode _ hbelow hrest
      ihBelow ih =>
      obtain ⟨hvalue, hvalues⟩ := below_cons.mp hvalues
      obtain ⟨hid, hlt⟩ := hvalue id hnode
      rw [List.nodup_append] at hnodup
      obtain ⟨hclosed, hclosed', hapart⟩ := hnodup
      -- Closed are first the nodes below, then the node itself, then those of the values behind
      -- it.
      obtain ⟨hnew, hclosed'⟩ := List.nodup_cons.mp hclosed'
      have hopened := (hbelow.visited_below hdescends (hdescends.below hid)).2
      -- nodes that are closed later have larger positions
      have hleft : ∀ x ∈ opened, (closed ++ id :: closed').idxOf x = closed.idxOf x := fun x hx =>
        List.idxOf_append_of_mem (hbelow.closed_perm.mem_iff.mpr hx)
      have hright : ∀ x ∈ opened', (closed ++ id :: closed').idxOf x =
          closed.length + (closed'.idxOf x + 1) := fun x hx => by
        have hx' := hrest.closed_perm.mem_iff.mpr hx
        have hnot : x ∉ closed := fun hmem => hapart x hmem x (List.mem_cons_of_mem id hx') rfl
        have hne : id ≠ x := fun heq => hnew (heq ▸ hx')
        rw [List.idxOf_append_of_notMem hnot, List.idxOf_cons_ne _ hne]
      have hself : (closed ++ id :: closed').idxOf id = closed.length := by
        have hnot : id ∉ closed := fun hmem => hapart id hmem id List.mem_cons_self rfl
        rw [List.idxOf_append_of_notMem hnot, List.idxOf_cons_self, Nat.add_zero]
      refine List.pairwise_append.mpr ⟨List.pairwise_cons.mpr ⟨fun y hy => Or.inl (hopened y hy), ?_⟩,
        ?_, fun x hx y hy => Or.inr ?_⟩
      · refine (ihBelow (hdescends.below hid) hclosed).imp_of_mem fun hx hy hxy => ?_
        rwa [hleft _ hx, hleft _ hy]
      · refine (ih hvalues hclosed').imp_of_mem fun hx hy hxy => ?_
        rw [hright _ hx, hright _ hy]
        exact hxy.imp_right fun hlt => by omega
      · rw [hright y hy]
        rcases List.mem_cons.mp hx with rfl | hx
        · rw [hself]
          omega
        · have := List.idxOf_lt_length_of_mem (hbelow.closed_perm.mem_iff.mpr hx)
          rw [hleft x hx]
          omega

/-! ### The unfolded tree

In the unfolded tree a node is gone into whenever it is met. The invariant that relates it to the
walk is that whatever has been met has been gone into (`Closed`), except for the nodes that are
open, which have larger numbers than anything that can be met at the time. -/

/-- A value and all that is below it, in the order of a walk that goes into every node
whenever it meets it. -/
def preorder (slots : NodeId → List Value) : Nat → Value → List Value
  | 0, value => [value]
  | depth + 1, value => value :: (value.node?.elim [] slots).flatMap (preorder slots depth)

/-- Values are below a bound and all that is below them has been met. -/
def Closed (slots : NodeId → List Value) (rank : NodeId → Nat) (bound : Nat)
    (before : List Value) : Prop :=
  ∀ value ∈ before, ∀ id, value.node? = some id → rank id < bound → slots id ⊆ before

/-- A depth above the number of a node is room enough: one more makes no difference. -/
theorem preorder_succ (hdescends : Descends slots known rank) (depth : Nat)
    (hvalue : ∀ id, value.node? = some id → known id ∧ rank id < depth) :
    preorder slots (depth + 1) value = preorder slots depth value := by
  induction depth generalizing value with
  | zero =>
      have hnone : value.node? = none := by
        cases hnode : value.node? with
        | none => rfl
        | some id => exact absurd (hvalue id hnode).2 (Nat.not_lt_zero _)
      simp [preorder, hnone]
  | succ depth ih =>
      unfold preorder
      cases hnode : value.node? with
      | none => rfl
      | some id =>
          obtain ⟨hid, hlt⟩ := hvalue id hnode
          refine congrArg (value :: ·) (List.flatMap_congr fun slot hslot => ih fun child hchild => ?_)
          have hbelow := hdescends.below hid slot hslot child hchild
          exact hbelow.imp_right fun h => by omega

theorem preorder_eq_cons (hdescends : Descends slots known rank) {depth : Nat}
    (hnode : value.node? = some id) (hid : known id) (hlt : rank id < depth) :
    preorder slots depth value = value :: (slots id).flatMap (preorder slots depth) := by
  rw [← preorder_succ hdescends depth fun child hchild => by
    obtain rfl := Option.some.inj (hnode.symm.trans hchild)
    exact ⟨hid, hlt⟩]
  rw [preorder, hnode, Option.elim_some]

/-- Below a value that has been met there is nothing new. -/
theorem preorder_subset (hdescends : Descends slots known rank)
    (hclosed : Closed slots rank bound before) (depth : Nat) (hmem : value ∈ before)
    (hvalue : ∀ id, value.node? = some id → known id ∧ rank id < bound) :
    preorder slots depth value ⊆ before := by
  induction depth generalizing value with
  | zero => exact List.cons_subset.mpr ⟨hmem, List.nil_subset _⟩
  | succ depth ih =>
      refine List.cons_subset.mpr ⟨hmem, fun x hx => ?_⟩
      obtain ⟨slot, hslot, hx⟩ := List.mem_flatMap.mp hx
      cases hnode : value.node? with
      | none => simp [hnode] at hslot
      | some id =>
          rw [hnode, Option.elim_some] at hslot
          obtain ⟨hid, hlt⟩ := hvalue id hnode
          refine ih (hclosed value hmem id hnode hlt hslot) (fun child hchild => ?_) hx
          exact (hdescends.below hid slot hslot child hchild).imp_right fun h => Nat.lt_trans h hlt

namespace Closed

variable {inner : List Value} (h : Closed slots rank bound before)
include h

/-- A value that has been met, or that is no node, has nothing new below it. -/
theorem skip (hknown : ∀ id, value.node? = some id → value ∈ before) :
    Closed slots rank bound (before ++ [value]) := by
  intro other hother id hid hlt
  have hold : other ∈ before := (List.mem_append.mp hother).elim (fun hmem => hmem) fun hmem => by
    obtain rfl := List.mem_singleton.mp hmem
    exact hknown id hid
  exact List.Subset.trans (h other hold id hid hlt) (List.subset_append_left _ _)

/-- What is below a node has smaller numbers than the node itself, which is open. -/
theorem enter (hnode : value.node? = some id) (hlt : rank id < bound) :
    Closed slots rank (rank id) (before ++ [value]) := by
  intro other hother x hx hltx
  rcases List.mem_append.mp hother with hother | hother
  · exact List.Subset.trans (h other hother x hx (Nat.lt_trans hltx hlt))
      (List.subset_append_left _ _)
  · obtain rfl := List.mem_singleton.mp hother
    obtain rfl := Option.some.inj (hnode.symm.trans hx)
    exact absurd hltx (Nat.lt_irrefl _)

/-- A node is left when all that is below it has been met. -/
theorem leave (hnode : value.node? = some id) (hslots : slots id ⊆ inner)
    (hbelow : Below known rank (rank id) inner)
    (hinner : Closed slots rank (rank id) (before ++ [value] ++ inner)) :
    Closed slots rank bound (before ++ value :: inner) := by
  intro other hother x hx hltx
  rcases List.mem_append.mp hother with hother | hother
  · exact List.Subset.trans (h other hother x hx hltx) (List.subset_append_left _ _)
  · rcases List.mem_cons.mp hother with rfl | hother
    · obtain rfl := Option.some.inj (hnode.symm.trans hx)
      exact fun slot hslot => List.mem_append_right _ (List.mem_cons_of_mem _ (hslots hslot))
    · rw [← List.append_cons] at hinner
      exact hinner other (List.mem_append_right _ (List.mem_cons_of_mem _ hother)) x hx
        (hbelow other hother x hx).2

/-- Unfolding a value that is skipped gives nothing new behind the value itself. -/
theorem eraseDups_preorder (hdescends : Descends slots known rank) (depth : Nat)
    (hknown : ∀ id, value.node? = some id → value ∈ before)
    (hvalue : ∀ id, value.node? = some id → known id ∧ rank id < bound) :
    (before ++ preorder slots depth value).eraseDups = (before ++ [value]).eraseDups := by
  have hsubset : preorder slots depth value ⊆ before ++ [value] := by
    cases hnode : value.node? with
    | none =>
        cases depth with
        | zero => exact List.subset_append_right _ _
        | succ depth =>
            rw [preorder, hnode]
            exact List.subset_append_right _ _
    | some id =>
        exact List.Subset.trans (preorder_subset hdescends h depth (hknown id hnode) hvalue)
          (List.subset_append_left _ _)
  obtain ⟨rest, hsplit⟩ : ∃ rest, preorder slots depth value = value :: rest := by
    cases depth <;> exact ⟨_, rfl⟩
  rw [hsplit, ← List.singleton_append, ← List.append_assoc]
  exact Firsts.eraseDups_append_of_subset fun x hx => hsubset (hsplit ▸ List.mem_cons_of_mem _ hx)

end Closed

/-- The walk of values meets everything below them, and everything first in the order of the
unfolded tree. -/
theorem closed_and_eraseDups (h : Visits slots before values visited opened closed)
    (hdescends : Descends slots known rank) {depth : Nat} (hdepth : bound ≤ depth)
    (hvalues : Below known rank bound values) (hclosed : Closed slots rank bound before) :
    Closed slots rank bound (before ++ visited) ∧
      (before ++ visited).eraseDups =
        (before ++ values.flatMap (preorder slots depth)).eraseDups := by
  induction h generalizing bound with
  | nil => simpa using hclosed
  | @skip before values visited opened closed value hknown hrest ih =>
      obtain ⟨hvalue, hvalues⟩ := below_cons.mp hvalues
      obtain ⟨hafter, heq⟩ := ih hdepth hvalues (hclosed.skip hknown)
      rw [List.append_assoc, List.singleton_append] at hafter heq
      refine ⟨hafter, heq.trans ?_⟩
      rw [List.flatMap_cons, ← List.append_assoc,
        Firsts.eraseDups_append_congr (hclosed.eraseDups_preorder hdescends depth hknown hvalue),
        List.append_assoc, List.singleton_append]
  | @enter before values inner visited value id opened opened' closed closed' hnode hnew hbelow hrest
      ihBelow ih =>
      obtain ⟨hvalue, hvalues⟩ := below_cons.mp hvalues
      obtain ⟨hid, hlt⟩ := hvalue id hnode
      have hslots := hdescends.below hid
      -- The node is gone into with its own number as the bound, and is complete when it is left.
      obtain ⟨hinner, heq⟩ := ihBelow (Nat.le_trans (Nat.le_of_lt hlt) hdepth) hslots
        (hclosed.enter hnode hlt)
      obtain ⟨hafter, heq'⟩ := ih hdepth hvalues (hclosed.leave hnode hbelow.subset
        (hbelow.visited_below hdescends hslots).1 hinner)
      refine ⟨by simpa using hafter, ?_⟩
      have hfirst : (before ++ value :: inner).eraseDups =
          (before ++ preorder slots depth value).eraseDups := by
        rw [preorder_eq_cons hdescends hnode hid (Nat.lt_of_lt_of_le hlt hdepth)]
        simpa using heq
      calc
        (before ++ (value :: inner ++ visited)).eraseDups
            = ((before ++ value :: inner) ++ visited).eraseDups := by rw [List.append_assoc]
        _ = ((before ++ value :: inner) ++ values.flatMap (preorder slots depth)).eraseDups := heq'
        _ = ((before ++ preorder slots depth value) ++
              values.flatMap (preorder slots depth)).eraseDups :=
          Firsts.eraseDups_append_congr hfirst _
        _ = (before ++ (value :: values).flatMap (preorder slots depth)).eraseDups := by
          rw [List.flatMap_cons, List.append_assoc]

/-- The walk of a tree meets everything first in the order of the unfolded tree. -/
theorem eraseDups_eq (h : Visits slots [] [value] visited opened closed)
    (hdescends : Descends slots known rank) {depth : Nat}
    (hvalue : ∀ id, value.node? = some id → known id ∧ rank id < depth) :
    visited.eraseDups = (preorder slots depth value).eraseDups := by
  have hbelow : Below known rank depth [value] := below_cons.mpr ⟨hvalue, by simp [Below]⟩
  have hclosed : Closed slots rank depth [] := fun other hother => absurd hother List.not_mem_nil
  simpa using (h.closed_and_eraseDups hdescends (Nat.le_refl depth) hbelow hclosed).2

end Visits

end SyntaxPack
