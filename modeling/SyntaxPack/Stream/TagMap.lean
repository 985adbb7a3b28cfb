/-!
# SyntaxPack.Stream.TagMap

Maps from tag indices, kept as lists in increasing order of the index.
-/

namespace SyntaxPack

/-- A map from tag indices, as a list of pairs in increasing order. -/
abbrev TagMap (α : Type) := List (Nat × α)

namespace TagMap

variable {α : Type}

/-- The value at a tag index. -/
def find? (map : TagMap α) (tag : Nat) : Option α :=
  match map with
  | [] => none
  | (key, value) :: map => if key = tag then some value else find? map tag

/-- Sets the value at a tag index. -/
def insert (tag : Nat) (value : α) : TagMap α → TagMap α
  | [] => [(tag, value)]
  | (key, old) :: map =>
    if tag < key then (tag, value) :: (key, old) :: map
    else if tag = key then (tag, value) :: map
    else (key, old) :: insert tag value map

@[simp] theorem find?_insert (map : TagMap α) (tag key : Nat) (value : α) :
    (map.insert tag value).find? key = if key = tag then some value else map.find? key := by
  induction map with
  | nil => simp [insert, find?, eq_comm]
  | cons entry map ih =>
    obtain ⟨k, old⟩ := entry
    simp only [insert]
    split
    · simp [find?, eq_comm]
    · split
      · subst_vars
        by_cases h : key = k <;> simp [find?, h, eq_comm]
      · by_cases h : k = key
        · subst h
          simp [find?, Ne.symm ‹_›]
        · simp [find?, h, ih]

end TagMap

end SyntaxPack
