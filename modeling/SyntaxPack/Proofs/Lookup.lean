import Mathlib.Data.List.Nodup
/-!
# SyntaxPack.Proofs.Lookup

Looking up names in a list of pairs.

The fields of an object and the properties of a document are lists of names with values. A
lookup finds the first pair of a name; where no name occurs twice, it finds every pair, and
two such lists with the same lookups have the same pairs.
-/

namespace SyntaxPack

variable {κ β γ : Type} [BEq κ] [LawfulBEq κ] {entries entries' : List (κ × β)} {name : κ}
  {value : β}

theorem lookup_cons_of_ne {key : κ} (h : name ≠ key) (value : β) (entries : List (κ × β)) :
    ((key, value) :: entries).lookup name = entries.lookup name := by
  have hne : (name == key) = false := by simpa using h
  rw [List.lookup_cons, hne]

theorem mem_of_lookup (h : entries.lookup name = some value) : (name, value) ∈ entries := by
  obtain ⟨before, after, rfl, -⟩ := List.lookup_eq_some_iff.mp h
  exact List.mem_append_right before List.mem_cons_self

theorem lookup_eq_none : entries.lookup name = none ↔ name ∉ entries.map (·.1) := by
  rw [List.lookup_eq_none_iff, List.mem_map]
  constructor
  · intro h hmem
    obtain ⟨entry, hentry, rfl⟩ := hmem
    simpa using h entry hentry
  · intro h entry hentry
    simpa using fun heq : name = entry.1 => h ⟨entry, hentry, heq.symm⟩

theorem isSome_lookup : (entries.lookup name).isSome = true ↔ name ∈ entries.map (·.1) := by
  rw [← not_iff_not, ← lookup_eq_none, Bool.not_eq_true, Option.isSome_eq_false_iff,
    Option.isNone_iff_eq_none]

/-- Where no name occurs twice, every pair is found. -/
theorem lookup_of_mem (hnodup : (entries.map (·.1)).Nodup) (h : (name, value) ∈ entries) :
    entries.lookup name = some value := by
  obtain ⟨before, after, rfl⟩ := List.append_of_mem h
  refine List.lookup_eq_some_iff.mpr ⟨before, after, rfl, fun other hother => ?_⟩
  rw [List.map_append, List.map_cons, List.nodup_append] at hnodup
  have hne := hnodup.2.2 other.1 (List.mem_map_of_mem hother) name List.mem_cons_self
  simpa using Ne.symm hne

/-- Lists with the same lookups have the same pairs. -/
theorem perm_of_lookup (hnodup : (entries.map (·.1)).Nodup) (hnodup' : (entries'.map (·.1)).Nodup)
    (h : ∀ name, entries.lookup name = entries'.lookup name) : entries.Perm entries' := by
  refine (List.perm_ext_iff_of_nodup hnodup.of_map hnodup'.of_map).mpr fun entry => ⟨?_, ?_⟩
  · exact fun hentry => mem_of_lookup ((h entry.1).symm.trans (lookup_of_mem hnodup hentry))
  · exact fun hentry => mem_of_lookup ((h entry.1).trans (lookup_of_mem hnodup' hentry))

omit [LawfulBEq κ] in
theorem lookup_map (f : β → γ) :
    (entries.map fun entry => (entry.1, f entry.2)).lookup name = (entries.lookup name).map f := by
  induction entries with
  | nil => rfl
  | cons entry entries ih =>
      rw [List.map_cons, List.lookup_cons, List.lookup_cons, ih]
      cases name == entry.1 <;> rfl

/-- Pairs that are selected by their names are found under these. -/
theorem lookup_filter (keep : κ → Bool) : (entries.filter fun entry => keep entry.1).lookup name =
    if keep name = true then entries.lookup name else none := by
  induction entries with
  | nil => simp
  | cons entry entries ih =>
      obtain ⟨key, value⟩ := entry
      rw [List.filter_cons]
      by_cases hkey : name = key
      · subst hkey
        cases hkeep : keep name
        · simpa [hkeep] using ih
        · simp
      · rw [lookup_cons_of_ne hkey]
        split
        · rw [lookup_cons_of_ne hkey, ih]
        · exact ih

/-- Names that are all given one value. -/
theorem lookup_map_const (names : List κ) (value : β) :
    (names.map fun name => (name, value)).lookup name = if name ∈ names then some value else none := by
  induction names with
  | nil => rfl
  | cons other names ih =>
      rw [List.map_cons]
      by_cases heq : name = other
      · simp [heq]
      · simp [lookup_cons_of_ne heq, ih, heq]

end SyntaxPack
