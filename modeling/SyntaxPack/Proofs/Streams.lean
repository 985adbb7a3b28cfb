import Mathlib.Data.List.Pairwise
import SyntaxPack.Stream.Basic
import SyntaxPack.Proofs.Reader
/-!
# SyntaxPack.Proofs.Streams

How many bytes a section and its value streams still hold.

Every token is taken from one place, the section or the stream of its tag, and
all other places stay as they are. So the number of unread bytes over all places
drops by exactly what one read takes. The count is over the pairs of a map, which
is why maps have to be ascending: then no tag is counted twice.
-/

namespace SyntaxPack

namespace TagMap

variable {α : Type}

/-- The tags of a map increase strictly. -/
def Ascending (map : TagMap α) : Prop := map.Pairwise (·.1 < ·.1)

/-- The sum of a size over all values of a map. -/
def total (size : α → Nat) (map : TagMap α) : Nat := (map.map fun p => size p.2).foldr (· + ·) 0

@[simp] theorem total_nil (size : α → Nat) : total size [] = 0 := rfl

@[simp] theorem total_cons (size : α → Nat) (tag : Nat) (value : α) (map : TagMap α) :
    total size ((tag, value) :: map) = size value + total size map := rfl

theorem ascending_nil : Ascending ([] : TagMap α) := List.Pairwise.nil

theorem mem_insert {map : TagMap α} {tag : Nat} {value : α} {p : Nat × α}
    (h : p ∈ map.insert tag value) : p = (tag, value) ∨ p ∈ map := by
  induction map with
  | nil => simpa [insert] using h
  | cons entry map ih =>
      obtain ⟨key, old⟩ := entry
      simp only [insert] at h
      split at h
      · simpa using h
      · split at h
        · rcases List.mem_cons.mp h with h | h
          · exact Or.inl h
          · exact Or.inr (List.mem_cons_of_mem _ h)
        · rcases List.mem_cons.mp h with h | h
          · exact Or.inr (h ▸ List.mem_cons_self)
          · rcases ih h with h | h
            · exact Or.inl h
            · exact Or.inr (List.mem_cons_of_mem _ h)

theorem Ascending.insert {map : TagMap α} (h : map.Ascending) (tag : Nat) (value : α) :
    (map.insert tag value).Ascending := by
  induction map with
  | nil => exact List.pairwise_singleton _ _
  | cons entry map ih =>
      obtain ⟨key, old⟩ := entry
      obtain ⟨hhead, htail⟩ := List.pairwise_cons.mp h
      simp only [TagMap.insert]
      split
      · rename_i hlt
        refine List.pairwise_cons.mpr ⟨fun p hp => ?_, h⟩
        rcases List.mem_cons.mp hp with rfl | hp
        · exact hlt
        · exact Nat.lt_trans hlt (hhead p hp)
      · split
        · rename_i heq
          exact List.pairwise_cons.mpr ⟨fun p hp => heq ▸ hhead p hp, htail⟩
        · refine List.pairwise_cons.mpr ⟨fun p hp => ?_, ih htail⟩
          rcases mem_insert hp with rfl | hp
          · show key < tag
            omega
          · exact hhead p hp

/-- A map has no value at a tag that is none of its tags. -/
theorem find?_eq_none_of_ne {map : TagMap α} {tag : Nat} (h : ∀ p ∈ map, p.1 ≠ tag) :
    map.find? tag = none := by
  induction map with
  | nil => rfl
  | cons entry map ih =>
      obtain ⟨key, old⟩ := entry
      rw [find?, if_neg (h (key, old) List.mem_cons_self)]
      exact ih fun p hp => h p (List.mem_cons_of_mem _ hp)

/-- A map has no value at a tag below all of its tags. -/
theorem find?_eq_none {map : TagMap α} {tag : Nat} (h : ∀ p ∈ map, tag < p.1) :
    map.find? tag = none :=
  find?_eq_none_of_ne fun p hp => Nat.ne_of_gt (h p hp)

theorem find?_append (map more : TagMap α) (tag : Nat) :
    TagMap.find? (map ++ more) tag = (map.find? tag).or (more.find? tag) := by
  induction map with
  | nil => rfl
  | cons entry map ih =>
      obtain ⟨key, value⟩ := entry
      rw [List.cons_append, find?, find?]
      split
      · rfl
      · exact ih

/-- The pairs of a map in front of one do not have its tag. -/
theorem Ascending.find?_take {map : TagMap α} (h : map.Ascending) {i : Nat} {p : Nat × α}
    (hp : map[i]? = some p) : TagMap.find? (map.take i) p.1 = none := by
  obtain ⟨hlt, rfl⟩ := List.getElem?_eq_some_iff.mp hp
  rw [Ascending, ← List.take_append_drop i map, List.pairwise_append,
    List.drop_eq_getElem_cons hlt] at h
  exact find?_eq_none_of_ne fun q hq => Nat.ne_of_lt (h.2.2 q hq _ List.mem_cons_self)

theorem Ascending.find?_take_succ {map : TagMap α} (h : map.Ascending) {i : Nat} {p : Nat × α}
    (hp : map[i]? = some p) (key : Nat) : TagMap.find? (map.take (i + 1)) key =
      if key = p.1 then some p.2 else TagMap.find? (map.take i) key := by
  have hnone := h.find?_take hp
  obtain ⟨hlt, rfl⟩ := List.getElem?_eq_some_iff.mp hp
  rw [← List.take_append_getElem hlt, find?_append]
  by_cases hkey : key = map[i].1
  · rw [if_pos hkey, hkey, hnone, Option.none_or, find?, if_pos rfl]
  · rw [if_neg hkey, find?, if_neg (Ne.symm hkey), find?, Option.or_none]

/-- Every pair of a map is found under its tag. -/
theorem find?_eq_some_of_mem {map : TagMap α} (h : map.Ascending) {p : Nat × α} (hp : p ∈ map) :
    map.find? p.1 = some p.2 := by
  induction map with
  | nil => simp at hp
  | cons entry map ih =>
      obtain ⟨key, value⟩ := entry
      obtain ⟨hhead, htail⟩ := List.pairwise_cons.mp h
      rcases List.mem_cons.mp hp with rfl | hp
      · rw [find?, if_pos rfl]
      · rw [find?, if_neg (Nat.ne_of_lt (hhead p hp))]
        exact ih htail hp

theorem mem_of_find? {map : TagMap α} {tag : Nat} {value : α} (h : map.find? tag = some value) :
    (tag, value) ∈ map := by
  induction map with
  | nil => simp [find?] at h
  | cons entry map ih =>
      obtain ⟨key, old⟩ := entry
      rw [find?] at h
      split at h
      · rename_i hkey
        rw [← hkey, ← Option.some.inj h]
        exact List.mem_cons_self
      · exact List.mem_cons_of_mem _ (ih h)

/-- Setting a value trades the size of the old one for that of the new one. -/
theorem total_insert (size : α → Nat) {map : TagMap α} (h : map.Ascending) (tag : Nat)
    (value : α) : total size (map.insert tag value) + ((map.find? tag).map size).getD 0 =
      total size map + size value := by
  induction map with
  | nil => simp [insert, find?]
  | cons entry map ih =>
      obtain ⟨key, old⟩ := entry
      obtain ⟨hhead, htail⟩ := List.pairwise_cons.mp h
      simp only [insert]
      split
      · rename_i hlt
        have hnone : find? ((key, old) :: map) tag = none := by
          refine find?_eq_none fun p hp => ?_
          rcases List.mem_cons.mp hp with rfl | hp
          · exact hlt
          · exact Nat.lt_trans hlt (hhead p hp)
        rw [hnone]
        simp only [total_cons, Option.map_none, Option.getD_none]
        omega
      · split
        · rename_i heq
          subst heq
          simp only [total_cons, find?, if_true, Option.map_some, Option.getD_some]
          omega
        · rename_i hne
          have hkey : key ≠ tag := fun h => hne h.symm
          simp only [total_cons, find?, if_neg hkey]
          have := ih htail
          omega

end TagMap

namespace StreamReader

/-- The streams are stored in the order of their tags. -/
def Ascending (r : StreamReader) : Prop := ∀ map, r.streams = some map → map.Ascending

theorem unread_eq (r : StreamReader) :
    r.unread = r.body.remaining + (r.streams.getD []).total Reader.remaining := rfl

theorem Ascending.advance {r : StreamReader} (h : r.Ascending) (tag : Nat) (rest : Reader) :
    (r.advance tag rest).Ascending := by
  intro map hmap
  cases hs : r.streams with
  | none => simp [StreamReader.advance, hs] at hmap
  | some old =>
      simp only [StreamReader.advance, hs, Option.some.injEq] at hmap
      exact hmap ▸ (h old hs).insert tag rest

/-- A read trades the reader of one place for a shorter one. -/
theorem unread_advance {r : StreamReader} (h : r.Ascending) {tag : Nat} {reader : Reader}
    (hroute : r.route tag = .ok reader) (rest : Reader) :
    (r.advance tag rest).unread + reader.remaining = r.unread + rest.remaining := by
  cases hs : r.streams with
  | none =>
      simp only [route, hs, Except.ok.injEq] at hroute
      simp only [unread_eq, StreamReader.advance, hs, hroute]
      omega
  | some map =>
      simp only [route, hs] at hroute
      split at hroute
      · rename_i stream hfind
        simp only [Except.ok.injEq] at hroute
        subst hroute
        have := TagMap.total_insert Reader.remaining (h map hs) tag rest
        rw [hfind] at this
        simp only [unread_eq, StreamReader.advance, hs, Option.getD_some]
        simp only [Option.map_some, Option.getD_some] at this
        omega
      · simp at hroute

theorem Ascending.insert {r : StreamReader} (h : r.Ascending) (tag : Nat) (stream : Reader) :
    (r.insert tag stream).2.Ascending := by
  intro map hmap
  simp only [StreamReader.insert, Option.some.injEq] at hmap
  subst hmap
  cases hs : r.streams with
  | none => exact TagMap.ascending_nil.insert tag stream
  | some old => exact (h old hs).insert tag stream

/-- Storing a stream adds at most its bytes. -/
theorem unread_insert_le {r : StreamReader} (h : r.Ascending) (tag : Nat) (stream : Reader) :
    (r.insert tag stream).2.unread ≤ r.unread + stream.remaining := by
  have hasc : (r.streams.getD []).Ascending := by
    cases hs : r.streams with
    | none => exact TagMap.ascending_nil
    | some old => exact h old hs
  have := TagMap.total_insert Reader.remaining hasc tag stream
  simp only [unread_eq, StreamReader.insert, Option.getD_some]
  omega

end StreamReader

end SyntaxPack
