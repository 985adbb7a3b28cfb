import Mathlib.Data.List.Pairwise
import Mathlib.Data.String.Basic
import SyntaxPack.Json.Document
import SyntaxPack.Proofs.Lookup
/-!
# SyntaxPack.Proofs.Json.Properties

The properties of an object in order.

Properties are set one after another and kept in increasing order of their names. So what an
object holds is a matter of its lookups alone: in whatever order properties of distinct names
are set, the object is the same.
-/

namespace SyntaxPack

namespace Json

namespace Properties

variable {properties properties' : Properties} {name key : String} {value : Json}
  {entries entries' : List (String × Json)}

/-- The names of properties increase strictly. -/
def Sorted (properties : Properties) : Prop := properties.Pairwise (·.1 < ·.1)

instance (properties : Properties) : Decidable properties.Sorted :=
  inferInstanceAs (Decidable (List.Pairwise (·.1 < ·.1) properties))

theorem Sorted.nodup (h : Sorted properties) : (properties.map (·.1)).Nodup :=
  List.pairwise_map.mpr (List.Pairwise.imp (fun hlt => hlt.ne) h)

/-- Sorted properties with the same lookups are the same. -/
theorem Sorted.ext (h : Sorted properties) (h' : Sorted properties')
    (hlookup : ∀ name, properties.lookup name = properties'.lookup name) :
    properties = properties' :=
  List.Perm.eq_of_pairwise (fun _ _ _ _ hlt hgt => absurd hgt hlt.not_gt) h h'
    (perm_of_lookup h.nodup h'.nodup hlookup)

/-! ### Setting properties -/

theorem lookup_insert (key : String) (value : Json) (properties : Properties) (name : String) :
    (insert key value properties).lookup name =
      if name = key then some value else properties.lookup name := by
  induction properties with
  | nil =>
      by_cases heq : name = key
      · simp [insert, heq]
      · simp [insert, lookup_cons_of_ne heq, heq]
  | cons property properties ih =>
      obtain ⟨other, old⟩ := property
      rw [insert]
      by_cases heq : name = key
      · subst heq
        rw [if_pos rfl] at ih ⊢
        split
        · simp
        · split
          · simp
          · rename_i hne
            rw [lookup_cons_of_ne hne, ih]
      · rw [if_neg heq] at ih ⊢
        split
        · rw [lookup_cons_of_ne heq]
        · split
          · rename_i hother
            rw [lookup_cons_of_ne heq, lookup_cons_of_ne (hother ▸ heq)]
          · rw [List.lookup_cons, List.lookup_cons, ih]

theorem mem_insert {property : String × Json} (h : property ∈ insert key value properties) :
    property = (key, value) ∨ property ∈ properties := by
  induction properties with
  | nil => exact Or.inl (List.mem_singleton.mp h)
  | cons other properties ih =>
      rw [insert] at h
      split at h
      · exact List.mem_cons.mp h
      · split at h
        · exact (List.mem_cons.mp h).imp_right (List.mem_cons_of_mem other)
        · rcases List.mem_cons.mp h with rfl | h
          · exact Or.inr List.mem_cons_self
          · exact (ih h).imp_right (List.mem_cons_of_mem other)

theorem Sorted.insert (h : Sorted properties) : Sorted (insert key value properties) := by
  induction properties with
  | nil => exact List.pairwise_singleton _ _
  | cons other properties ih =>
      obtain ⟨hfirst, hrest⟩ := List.pairwise_cons.mp h
      rw [Properties.insert]
      split
      · rename_i hlt
        refine List.pairwise_cons.mpr ⟨fun property hproperty => ?_, h⟩
        rcases List.mem_cons.mp hproperty with rfl | hproperty
        · exact hlt
        · exact hlt.trans (hfirst property hproperty)
      · split
        · rename_i heq
          exact List.pairwise_cons.mpr ⟨fun property hproperty => heq ▸ hfirst property hproperty, hrest⟩
        · rename_i hge hne
          refine List.pairwise_cons.mpr ⟨fun property hproperty => ?_, ih hrest⟩
          rcases mem_insert hproperty with rfl | hproperty
          · exact lt_of_le_of_ne (not_lt.mp hge) (Ne.symm hne)
          · exact hfirst property hproperty

theorem sorted_ofList (entries : List (String × Json)) : Sorted (ofList entries) := by
  suffices ∀ properties, Sorted properties →
      Sorted (entries.foldl (fun sorted entry => insert entry.1 entry.2 sorted) properties) from
    this [] List.Pairwise.nil
  induction entries with
  | nil => exact fun _ h => h
  | cons entry entries ih => exact fun _ h => ih _ h.insert

/-- Where no name is set twice, each is found with what it was set to. -/
theorem lookup_ofList (hnodup : (entries.map (·.1)).Nodup) (name : String) :
    (ofList entries).lookup name = entries.lookup name := by
  suffices ∀ properties : Properties,
      (entries.foldl (fun sorted entry => insert entry.1 entry.2 sorted) properties).lookup name =
        (entries.lookup name).or (properties.lookup name) by
    simpa [ofList] using this []
  induction entries with
  | nil => exact fun _ => rfl
  | cons entry entries ih =>
      intro properties
      obtain ⟨hentry, hrest⟩ := List.nodup_cons.mp hnodup
      obtain ⟨key, value⟩ := entry
      rw [List.foldl_cons, ih hrest, lookup_insert]
      by_cases heq : name = key
      · rw [heq, lookup_eq_none.mpr hentry]
        simp
      · rw [if_neg heq, lookup_cons_of_ne heq]

theorem mem_ofList {property : String × Json} (h : property ∈ ofList entries) : property ∈ entries := by
  suffices ∀ properties : Properties,
      property ∈ entries.foldl (fun sorted entry => insert entry.1 entry.2 sorted) properties →
        property ∈ entries ∨ property ∈ properties by
    simpa using this [] h
  clear h
  induction entries with
  | nil => exact fun _ h => .inr h
  | cons entry entries ih =>
      intro properties h
      rcases ih _ h with hmem | hmem
      · exact .inl (List.mem_cons_of_mem entry hmem)
      · rcases mem_insert hmem with rfl | hmem
        · exact .inl List.mem_cons_self
        · exact .inr hmem

end Properties

/-- Objects whose properties are set to the same are the same, in whatever order they are set. -/
theorem ofProperties_eq {entries entries' : List (String × Json)}
    (hnodup : (entries.map (·.1)).Nodup) (hnodup' : (entries'.map (·.1)).Nodup)
    (h : ∀ name, entries.lookup name = entries'.lookup name) :
    ofProperties entries = ofProperties entries' :=
  congrArg Json.object <| (Properties.sorted_ofList entries).ext (Properties.sorted_ofList entries')
    fun name => by rw [Properties.lookup_ofList hnodup, Properties.lookup_ofList hnodup', h]

/-- The properties of every object in a document are in increasing order of their names. -/
inductive Ordered : Json → Prop
  | null : Ordered .null
  | boolean (value : Bool) : Ordered (.boolean value)
  | integer (value : Int) : Ordered (.integer value)
  | float (value : Double) : Ordered (.float value)
  | string (value : String) : Ordered (.string value)
  | array {items : List Json} (items_ordered : ∀ item ∈ items, Ordered item) : Ordered (.array items)
  | object {properties : Properties} (sorted : properties.Sorted)
      (values_ordered : ∀ property ∈ properties, Ordered property.2) : Ordered (.object properties)

end Json

end SyntaxPack
