import Mathlib.Data.List.Forall2
import Mathlib.Data.List.Induction
import Mathlib.Data.List.Nodup
/-!
# SyntaxPack.Proofs.Firsts

First occurrences in a list.

A table lists what was added to it in the order of first occurrence, which is what
`eraseDups` gives. The lemmas here say when such lists of two runs correspond: if the
runs met corresponding items one after another, and items of the one are equal exactly
where those of the other are, then the first occurrences correspond as well, and so do
selections of them and their order by any property that corresponding items share.
-/

namespace SyntaxPack

namespace Firsts

section Dups

variable {α β : Type} [BEq α] [LawfulBEq α] [BEq β] [LawfulBEq β] {l l' : List α} {a : α}

theorem eraseDups_snoc (l : List α) (a : α) :
    (l ++ [a]).eraseDups = if a ∈ l then l.eraseDups else l.eraseDups ++ [a] := by
  rw [List.eraseDups_append]
  by_cases h : a ∈ l
  · simp [List.removeAll, h]
  · simp [List.removeAll, h, List.eraseDups_cons]

theorem nodup_eraseDups (l : List α) : l.eraseDups.Nodup := by
  induction l using List.reverseRecOn with
  | nil => simp
  | append_singleton l a ih =>
      rw [eraseDups_snoc]
      by_cases h : a ∈ l
      · rwa [if_pos h]
      · rw [if_neg h]
        exact List.nodup_append.mpr ⟨ih, List.nodup_singleton a, fun b hb c hc heq => h <| by
          rw [← List.mem_singleton.mp hc, ← heq]
          exact List.mem_eraseDups.mp hb⟩

theorem eraseDups_of_nodup (h : l.Nodup) : l.eraseDups = l := by
  induction l using List.reverseRecOn with
  | nil => rfl
  | append_singleton l a ih =>
      rw [List.nodup_append] at h
      have hnot : a ∉ l := fun hmem => h.2.2 a hmem a (List.mem_singleton_self a) rfl
      rw [eraseDups_snoc, if_neg hnot, ih h.1]

/-- Lists with the same first occurrences keep them whatever follows. -/
theorem eraseDups_append_congr (h : l.eraseDups = l'.eraseDups) (more : List α) :
    (l ++ more).eraseDups = (l' ++ more).eraseDups := by
  have hmem : ∀ x, x ∈ l ↔ x ∈ l' := fun x => by
    rw [← List.mem_eraseDups, h, List.mem_eraseDups]
  have hremove : more.removeAll l = more.removeAll l' :=
    List.filter_congr fun x _ => by
      by_cases hx : x ∈ l
      · simp [hx, (hmem x).mp hx]
      · simp [hx, mt (hmem x).mpr hx]
  rw [List.eraseDups_append, List.eraseDups_append, h, hremove]

/-- What has occurred before adds nothing. -/
theorem eraseDups_append_of_subset {more : List α} (h : more ⊆ l) :
    (l ++ more).eraseDups = l.eraseDups := by
  induction more using List.reverseRecOn with
  | nil => rw [List.append_nil]
  | append_singleton more a ih =>
      have hsubset : more ⊆ l := fun x hx => h (List.mem_append_left [a] hx)
      have ha : a ∈ l ++ more := List.mem_append_left more (h (by simp))
      rw [← List.append_assoc, eraseDups_snoc, if_pos ha, ih hsubset]

theorem eraseDups_filter (l : List α) (p : α → Bool) :
    (l.filter p).eraseDups = l.eraseDups.filter p := by
  induction l using List.reverseRecOn with
  | nil => rfl
  | append_singleton l a ih =>
      rw [List.filter_append, eraseDups_snoc]
      by_cases hp : p a = true
      · rw [List.filter_cons_of_pos hp, List.filter_nil, eraseDups_snoc]
        by_cases ha : a ∈ l
        · rw [if_pos (List.mem_filter.mpr ⟨ha, hp⟩), if_pos ha, ih]
        · rw [if_neg fun hmem => ha (List.mem_of_mem_filter hmem), if_neg ha, ih, List.filter_append,
            List.filter_cons_of_pos hp, List.filter_nil]
      · rw [List.filter_cons_of_neg hp, List.filter_nil, List.append_nil, ih]
        by_cases ha : a ∈ l
        · rw [if_pos ha]
        · rw [if_neg ha, List.filter_append, List.filter_cons_of_neg hp, List.filter_nil,
            List.append_nil]

/-- The first occurrences of what is selected from a list are those of what is selected
from its first occurrences. -/
theorem eraseDups_filterMap (f : α → Option β) (l : List α) :
    (l.filterMap f).eraseDups = (l.eraseDups.filterMap f).eraseDups := by
  induction l using List.reverseRecOn with
  | nil => rfl
  | append_singleton l a ih =>
      rw [List.filterMap_append, eraseDups_snoc, eraseDups_append_congr ih]
      by_cases ha : a ∈ l
      · rw [if_pos ha]
        refine eraseDups_append_of_subset fun b hb => ?_
        obtain ⟨x, hx, hfx⟩ := List.mem_filterMap.mp hb
        obtain rfl := List.mem_singleton.mp hx
        exact List.mem_filterMap.mpr ⟨x, List.mem_eraseDups.mpr ha, hfx⟩
      · rw [if_neg ha, List.filterMap_append]

theorem eraseDups_filterMap_congr (h : l.eraseDups = l'.eraseDups) (f : α → Option β) :
    (l.filterMap f).eraseDups = (l'.filterMap f).eraseDups := by
  rw [eraseDups_filterMap, h, ← eraseDups_filterMap]

theorem eraseDups_map_congr (h : l.eraseDups = l'.eraseDups) (f : α → β) :
    (l.map f).eraseDups = (l'.map f).eraseDups := by
  have hcongr := eraseDups_filterMap_congr h (some ∘ f)
  rwa [List.filterMap_eq_map] at hcongr

theorem map_eraseDups (f : α → β) (hinj : ∀ a ∈ l, ∀ b ∈ l, f a = f b → a = b) :
    l.eraseDups.map f = (l.map f).eraseDups := by
  induction l using List.reverseRecOn with
  | nil => rfl
  | append_singleton l a ih =>
      have ih := ih fun b hb c hc => hinj b (List.mem_append_left [a] hb) c (List.mem_append_left [a] hc)
      have hmem : f a ∈ l.map f ↔ a ∈ l := by
        refine ⟨fun h => ?_, List.mem_map_of_mem⟩
        obtain ⟨b, hb, heq⟩ := List.mem_map.mp h
        rwa [← hinj b (List.mem_append_left [a] hb) a (by simp) heq]
      rw [eraseDups_snoc, List.map_append, List.map_singleton, eraseDups_snoc]
      by_cases ha : a ∈ l
      · rw [if_pos ha, if_pos (hmem.mpr ha), ih]
      · rw [if_neg ha, if_neg (mt hmem.mp ha), List.map_append, ih, List.map_singleton]

/-- If every item stands for one that occurs no later, the items that stand for themselves are
the first occurrences of what items stand for. -/
theorem filter_eraseDups_of_first [DecidableEq α] (f : α → α) (hself : ∀ a ∈ l, f (f a) = f a)
    (hfirst : ∀ before a after, l = before ++ a :: after → f a = a ∨ f a ∈ before) :
    l.eraseDups.filter (fun a => f a = a) = (l.map f).eraseDups := by
  induction l using List.reverseRecOn with
  | nil => rfl
  | append_singleton l a ih =>
      have ih := ih (fun b hb => hself b (List.mem_append_left [a] hb)) fun before b after hsplit =>
        hfirst before b (after ++ [a]) (by rw [hsplit]; simp)
      -- what an item of the list stands for is in the list
      have hclosed : ∀ b ∈ l, f b ∈ l := by
        intro b hb
        obtain ⟨before, after, rfl⟩ := List.append_of_mem hb
        rcases hfirst before b (after ++ [a]) (by simp) with heq | hmem
        · rwa [heq]
        · exact List.mem_append_left _ hmem
      rw [List.map_append, List.map_singleton, eraseDups_snoc, eraseDups_snoc, ← ih]
      by_cases ha : a ∈ l
      · rw [if_pos ha, if_pos (List.mem_map_of_mem ha)]
      · rw [if_neg ha, List.filter_append]
        rcases hfirst l a [] rfl with heq | hmem
        · have hnew : f a ∉ l.map f := fun hmem => ha <| by
            obtain ⟨b, hb, hfb⟩ := List.mem_map.mp hmem
            exact heq ▸ hfb ▸ hclosed b hb
          rw [if_neg hnew, heq, List.filter_cons_of_pos (by simpa using heq), List.filter_nil]
        · have hne : f a ≠ a := fun heq => ha (heq ▸ hmem)
          have hold : f a ∈ l.map f :=
            List.mem_map.mpr ⟨f a, hmem, hself a (by simp)⟩
          rw [if_pos hold, List.filter_cons_of_neg (by simpa using hne), List.filter_nil, List.append_nil]

end Dups

/-! ### Lists that correspond -/

variable {α β : Type} {rel : α → β → Prop} {xs : List α} {ys : List β}

/-- Corresponding lists are the two sides of a list of pairs. -/
theorem exists_pairs (h : List.Forall₂ rel xs ys) : ∃ pairs : List (α × β),
    pairs.map (·.1) = xs ∧ pairs.map (·.2) = ys ∧ ∀ p ∈ pairs, rel p.1 p.2 := by
  obtain ⟨hlength, hall⟩ := List.forall₂_iff_zip.mp h
  refine ⟨xs.zip ys, List.map_fst_zip (Nat.le_of_eq hlength),
    List.map_snd_zip (Nat.le_of_eq hlength.symm), ?_⟩
  exact fun p hp => hall hp

theorem forall₂_of_pairs {pairs : List (α × β)} (h : ∀ p ∈ pairs, rel p.1 p.2) :
    List.Forall₂ rel (pairs.map (·.1)) (pairs.map (·.2)) := by
  rw [List.forall₂_map_left_iff, List.forall₂_map_right_iff, List.forall₂_same]
  exact h

/-- First occurrences correspond. -/
theorem forall₂_eraseDups [BEq α] [LawfulBEq α] [BEq β] [LawfulBEq β] (h : List.Forall₂ rel xs ys)
    (huniq : ∀ x y x' y', x ∈ xs → x' ∈ xs → rel x y → rel x' y' → (x = x' ↔ y = y')) :
    List.Forall₂ rel xs.eraseDups ys.eraseDups := by
  obtain ⟨pairs, rfl, rfl, hpairs⟩ := exists_pairs h
  have huniq : ∀ p ∈ pairs, ∀ q ∈ pairs, (p.1 = q.1 ↔ p.2 = q.2) := fun p hp q hq =>
    huniq p.1 p.2 q.1 q.2 (List.mem_map_of_mem hp) (List.mem_map_of_mem hq) (hpairs p hp) (hpairs q hq)
  rw [← map_eraseDups (·.1) fun p hp q hq heq => Prod.ext heq ((huniq p hp q hq).mp heq),
    ← map_eraseDups (·.2) fun p hp q hq heq => Prod.ext ((huniq p hp q hq).mpr heq) heq]
  exact forall₂_of_pairs fun p hp => hpairs p (List.mem_eraseDups.mp hp)

/-- Selections correspond. -/
theorem forall₂_filter (h : List.Forall₂ rel xs ys) {p : α → Bool} {q : β → Bool}
    (hsame : ∀ x y, x ∈ xs → rel x y → p x = q y) :
    List.Forall₂ rel (xs.filter p) (ys.filter q) := by
  induction h with
  | nil => exact .nil
  | @cons x y xs ys hrel _ ih =>
      have ih := ih fun x' y' hx' => hsame x' y' (List.mem_cons_of_mem x hx')
      have heq := hsame x y List.mem_cons_self hrel
      by_cases hp : p x = true
      · rw [List.filter_cons_of_pos hp, List.filter_cons_of_pos (heq ▸ hp)]
        exact .cons hrel ih
      · rw [List.filter_cons_of_neg hp, List.filter_cons_of_neg (heq ▸ hp)]
        exact ih

/-- Lists that are sorted by the same property correspond. -/
theorem forall₂_mergeSort (h : List.Forall₂ rel xs ys) {le : α → α → Bool} {le' : β → β → Bool}
    (hsame : ∀ x y x' y', x ∈ xs → x' ∈ xs → rel x y → rel x' y' → le x x' = le' y y') :
    List.Forall₂ rel (xs.mergeSort le) (ys.mergeSort le') := by
  obtain ⟨pairs, rfl, rfl, hpairs⟩ := exists_pairs h
  have hleft := @List.map_mergeSort _ _ (fun p q : α × β => le p.1 q.1) le (·.1) pairs
    fun _ _ _ _ => rfl
  have hright := @List.map_mergeSort _ _ (fun p q : α × β => le p.1 q.1) le' (·.2) pairs
    fun p hp q hq => hsame p.1 p.2 q.1 q.2 (List.mem_map_of_mem hp) (List.mem_map_of_mem hq)
      (hpairs p hp) (hpairs q hq)
  rw [← hleft, ← hright]
  exact forall₂_of_pairs fun p hp => hpairs p (List.mem_mergeSort.mp hp)

end Firsts

end SyntaxPack
