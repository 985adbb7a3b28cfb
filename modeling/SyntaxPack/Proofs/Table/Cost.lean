import Mathlib.Algebra.BigOperators.Group.Finset.Basic
import Mathlib.Algebra.Order.Ring.Nat
import SyntaxPack.Proofs.Table.Counting
/-!
# SyntaxPack.Proofs.Table.Cost

What the order of a table costs.

A name that stands at some position costs `w` of the position every time it is used. If later
positions cost no less than earlier ones, the order in which the names are used most often first is
cheapest: two neighbours that stand the other way round can change places at no cost.
-/

namespace SyntaxPack

namespace UniqueTable

variable {w : Nat → Nat}

/-- A count that no count before it is smaller than costs no less at the front. -/
theorem sum_mapIdx_insert_le (hw : Monotone w) {c : Nat} {before : List Nat}
    (hbefore : ∀ b ∈ before, c ≤ b) (after : List Nat) :
    ((before ++ c :: after).mapIdx fun i n => n * w i).sum ≤
      c * w 0 + ((before ++ after).mapIdx fun i n => n * w (i + 1)).sum := by
  induction before generalizing w with
  | nil => simp
  | cons b before ih =>
      have hrest := ih (w := fun i => w (i + 1)) (fun i j hij => hw (Nat.succ_le_succ hij))
        fun n hn => hbefore n (List.mem_cons_of_mem b hn)
      have hexchange : c * w 1 + b * w 0 ≤ c * w 0 + b * w 1 :=
        mul_add_mul_le_mul_add_mul (hbefore b List.mem_cons_self) (hw (Nat.zero_le 1))
      simp only [List.cons_append, List.mapIdx_cons, List.sum_cons, Nat.zero_add] at hrest ⊢
      omega

/-- Counts cost least in decreasing order. -/
theorem sum_mapIdx_sorted_le (hw : Monotone w) {counts sorted : List Nat}
    (hperm : counts.Perm sorted) (hsorted : sorted.Pairwise (· ≥ ·)) :
    (sorted.mapIdx fun i n => n * w i).sum ≤ (counts.mapIdx fun i n => n * w i).sum := by
  induction counts generalizing w sorted with
  | nil => rw [List.nil_perm.mp hperm]
  | cons c counts ih =>
      obtain ⟨before, after, rfl⟩ := List.append_of_mem (hperm.mem_iff.mp List.mem_cons_self)
      have hrest : counts.Perm (before ++ after) := (hperm.trans List.perm_middle).cons_inv
      have hsublist : (before ++ after).Sublist (before ++ c :: after) :=
        (List.sublist_cons_self c after).append_left before
      have hbefore : ∀ b ∈ before, c ≤ b := fun b hb =>
        (List.pairwise_append.mp hsorted).2.2 b hb c List.mem_cons_self
      calc ((before ++ c :: after).mapIdx fun i n => n * w i).sum
          ≤ c * w 0 + ((before ++ after).mapIdx fun i n => n * w (i + 1)).sum :=
            sum_mapIdx_insert_le hw hbefore after
        _ ≤ c * w 0 + (counts.mapIdx fun i n => n * w (i + 1)).sum :=
            Nat.add_le_add_left (ih (fun i j hij => hw (Nat.succ_le_succ hij)) hrest
              (hsorted.sublist hsublist)) _
        _ = ((c :: counts).mapIdx fun i n => n * w i).sum := by
            rw [List.mapIdx_cons, List.sum_cons]

variable {κ : Type} [DecidableEq κ] {log keys : List κ}

/-- What names cost is what their positions cost as often as they are used. -/
theorem sum_idxOf_eq (hkeys : keys.Nodup) (hlog : ∀ x ∈ log, x ∈ keys) :
    (log.map fun x => w (keys.idxOf x)).sum =
      ((keys.map log.count).mapIdx fun i n => n * w i).sum := by
  have hzero : ∀ x ∈ keys.toFinset, x ∉ log.toFinset → log.count x • w (keys.idxOf x) = 0 := by
    intro x _ hx
    rw [List.count_eq_zero_of_not_mem (mt List.mem_toFinset.mpr hx), zero_nsmul]
  have hsubset : log.toFinset ⊆ keys.toFinset := fun x hx =>
    List.mem_toFinset.mpr (hlog x (List.mem_toFinset.mp hx))
  rw [Finset.sum_list_map_count, Finset.sum_subset hsubset hzero, List.sum_toFinset _ hkeys]
  refine congrArg List.sum (List.ext_getElem (by simp) fun i hi _ => ?_)
  rw [List.length_map] at hi
  simp [hkeys.idxOf_getElem i hi]

/-- The names that are used most often first is the cheapest order. -/
theorem sum_idxOf_inOrder_le (hw : Monotone w) (hkeys : keys.Nodup) (hlog : ∀ x ∈ log, x ∈ keys) :
    (log.map fun x => w ((inOrder .hitCountDescending log keys).idxOf x)).sum ≤
      (log.map fun x => w ((inOrder .insertion log keys).idxOf x)).sum := by
  have hperm : (inOrder .hitCountDescending log keys).Perm keys := List.mergeSort_perm _ _
  have hsorted : ((inOrder .hitCountDescending log keys).map log.count).Pairwise (· ≥ ·) := by
    refine List.pairwise_map.mpr ((List.pairwise_mergeSort (fun a b c hab hbc => ?_)
      (fun a b => ?_) keys).imp fun hab => by simpa using hab)
    · simp only [decide_eq_true_eq] at hab hbc ⊢
      exact Nat.le_trans hbc hab
    · simpa using Nat.le_total (log.count b) (log.count a)
  have hinsertion : (log.map fun x => w ((inOrder .insertion log keys).idxOf x)).sum =
      ((keys.map log.count).mapIdx fun i n => n * w i).sum := sum_idxOf_eq hkeys hlog
  rw [sum_idxOf_eq (hperm.nodup_iff.mpr hkeys) fun x hx => hperm.mem_iff.mpr (hlog x hx), hinsertion]
  exact sum_mapIdx_sorted_le hw (hperm.symm.map _) hsorted

end UniqueTable

end SyntaxPack
