import Mathlib.Data.List.Nodup
import SyntaxPack.Tree.Interchange
import SyntaxPack.Proofs.Json.Properties
import SyntaxPack.Proofs.Registry
/-!
# SyntaxPack.Proofs.Json.Places

The places in a document and their order.

A path leads from a document to one of its parts (`Json.at?`). The parts are in order
(`Path.Before`): a value comes before what is in it, items follow one another, and of the properties
of an object those that its shape declares come first, as they are declared, then the others by
their names. Of two parts of a document one comes first (`Path.before_trichotomy`).
-/

namespace SyntaxPack

/-- The text under the type key is all that names the shape of an object. -/
theorem Tree.typeName?_eq_some {registry : Registry} {properties : Json.Properties}
    {name : String} :
    typeName? registry properties = some name ↔
      properties.lookup registry.typeKey = some (.string name) := by
  unfold typeName?
  split
  · rename_i hlookup
    simp [hlookup]
  · rename_i hother
    simp only [reduceCtorEq, false_iff]
    exact hother name

namespace Json

variable {registry : Registry} {json child : Json} {properties : Properties} {items : List Json}
  {name : String} {shape : ShapeId}

/-- What holds of a document if it holds of its items and properties holds of every document. -/
theorem parts_induction {motive : Json → Prop} (null : motive .null)
    (boolean : ∀ value, motive (.boolean value)) (integer : ∀ value, motive (.integer value))
    (float : ∀ value, motive (.float value)) (string : ∀ value, motive (.string value))
    (array : ∀ items, (∀ item ∈ items, motive item) → motive (.array items))
    (object : ∀ properties, (∀ property ∈ properties, motive property.2) →
      motive (.object properties)) (json : Json) : motive json := by
  match json with
  | .null => exact null
  | .boolean value => exact boolean value
  | .integer value => exact integer value
  | .float value => exact float value
  | .string value => exact string value
  | .array items =>
      exact array items fun item hitem =>
        parts_induction null boolean integer float string array object item
  | .object properties =>
      exact object properties fun property hproperty =>
        parts_induction null boolean integer float string array object property.2
termination_by sizeOf json
decreasing_by
  · have hlt := List.sizeOf_lt_of_mem hitem
    simp only [Json.array.sizeOf_spec]
    omega
  · have hlt := List.sizeOf_lt_of_mem hproperty
    obtain ⟨name, value⟩ := property
    simp only [Prod.mk.sizeOf_spec, Json.object.sizeOf_spec] at hlt ⊢
    omega

/-! ### Steps -/

/-- What a step leads to. -/
def step? : Json → Step → Option Json
  | .object properties, .property name => properties.lookup name
  | .array items, .item index => items[index]?
  | _, _ => none

/-- What a path leads to. -/
def at? : Json → Path → Option Json
  | json, [] => some json
  | json, step :: path => (json.step? step).bind fun child => child.at? path

theorem at?_cons {step : Step} {path : Path} {value : Json} :
    json.at? (step :: path) = some value ↔
      ∃ child, json.step? step = some child ∧ child.at? path = some value :=
  Option.bind_eq_some_iff

/-- The names of the fields that the shape of an object declares. -/
def declaredNames (registry : Registry) (properties : Properties) : List String :=
  match (Tree.typeName? registry properties).bind registry.lookup with
  | some shape => (registry.fields shape).map (·.name)
  | none => []

theorem declaredNames_eq {typeName : String}
    (hnamed : Tree.typeName? registry properties = some typeName)
    (hshape : registry.lookup typeName = some shape) :
    declaredNames registry properties = (registry.fields shape).map (·.name) := by
  simp [declaredNames, hnamed, hshape]

theorem nodup_declaredNames (hr : registry.Valid) (properties : Properties) :
    (declaredNames registry properties).Nodup := by
  rw [declaredNames]
  split
  · exact hr.fields_nodup_names _
  · exact List.nodup_nil

/-! ### The order of steps -/

/-- The order of the steps out of one value. -/
inductive Step.Before (registry : Registry) : Json → Step → Step → Prop
  | items {items : List Json} {i j : Nat} (h : i < j) :
      Before registry (.array items) (.item i) (.item j)
  /-- The first of two properties is declared, and the other one later or not at all. -/
  | declared {properties : Properties} {a b : String}
      (h : (declaredNames registry properties).idxOf a < (declaredNames registry properties).idxOf b) :
      Before registry (.object properties) (.property a) (.property b)
  | others {properties : Properties} {a b : String} (ha : a ∉ declaredNames registry properties)
      (hb : b ∉ declaredNames registry properties) (h : a < b) :
      Before registry (.object properties) (.property a) (.property b)

theorem mem_of_idxOf_lt {names : List String} {a b : String} (h : names.idxOf a < names.idxOf b) :
    a ∈ names :=
  List.idxOf_lt_length_iff.mp (Nat.lt_of_lt_of_le h List.idxOf_le_length)

theorem Step.Before.asymm {step step' : Step} (h : step.Before registry json step') :
    ¬ step'.Before registry json step := by
  intro h'
  cases h with
  | items hlt =>
      cases h' with
      | items hlt' => exact Nat.lt_asymm hlt hlt'
  | declared hlt =>
      cases h' with
      | declared hlt' => exact Nat.lt_asymm hlt hlt'
      | others _ hnot _ => exact hnot (mem_of_idxOf_lt hlt)
  | others hnot _ hlt =>
      cases h' with
      | declared hlt' => exact absurd (mem_of_idxOf_lt hlt') ‹_›
      | others _ _ hlt' => exact lt_asymm hlt hlt'

/-- One of two steps out of a value comes first. -/
theorem Step.before_trichotomy (registry : Registry) {step step' : Step} {other : Json}
    (h : json.step? step = some child) (h' : json.step? step' = some other) :
    step.Before registry json step' ∨ step = step' ∨ step'.Before registry json step := by
  cases json with
  | array items =>
      cases step with
      | property => cases h
      | item i =>
          cases step' with
          | property => cases h'
          | item j =>
              rcases Nat.lt_trichotomy i j with hlt | rfl | hlt
              · exact .inl (.items hlt)
              · exact .inr (.inl rfl)
              · exact .inr (.inr (.items hlt))
  | object properties =>
      cases step with
      | item => cases h
      | property a =>
          cases step' with
          | item => cases h'
          | property b =>
              rcases Nat.lt_trichotomy ((declaredNames registry properties).idxOf a)
                ((declaredNames registry properties).idxOf b) with hlt | heq | hlt
              · exact .inl (.declared hlt)
              · by_cases hmem : a ∈ declaredNames registry properties
                · exact .inr (.inl (by rw [(List.idxOf_inj hmem).mp heq]))
                · have hmem' : b ∉ declaredNames registry properties := by
                    rwa [← List.idxOf_lt_length_iff, ← heq, List.idxOf_lt_length_iff]
                  rcases lt_trichotomy a b with hlt | rfl | hlt
                  · exact .inl (.others hmem hmem' hlt)
                  · exact .inr (.inl rfl)
                  · exact .inr (.inr (.others hmem' hmem hlt))
              · exact .inr (.inr (.declared hlt))
  | null | boolean _ | integer _ | float _ | string _ => cases step <;> cases h

/-! ### The order of paths -/

/-- The order of the places in a document. -/
inductive Path.Before (registry : Registry) : Json → Path → Path → Prop
  /-- A value comes before what is in it. -/
  | inside {json : Json} {step : Step} {path : Path} : Before registry json [] (step :: path)
  | apart {json : Json} {step step' : Step} {path path' : Path}
      (h : step.Before registry json step') : Before registry json (step :: path) (step' :: path')
  | deeper {json child : Json} {step : Step} {path path' : Path}
      (hstep : json.step? step = some child) (h : Before registry child path path') :
      Before registry json (step :: path) (step :: path')

/-- One of two parts of a document comes first. -/
theorem Path.before_trichotomy (registry : Registry) {path path' : Path} {value value' : Json}
    (h : json.at? path = some value) (h' : json.at? path' = some value') :
    Path.Before registry json path path' ∨ path = path' ∨ Path.Before registry json path' path := by
  induction path generalizing json path' with
  | nil =>
      cases path' with
      | nil => exact .inr (.inl rfl)
      | cons => exact .inl .inside
  | cons step path ih =>
      cases path' with
      | nil => exact .inr (.inr .inside)
      | cons step' path' =>
          obtain ⟨child, hstep, hvalue⟩ := at?_cons.mp h
          obtain ⟨child', hstep', hvalue'⟩ := at?_cons.mp h'
          rcases Step.before_trichotomy registry hstep hstep' with hlt | rfl | hlt
          · exact .inl (.apart hlt)
          · obtain rfl := Option.some.inj (hstep.symm.trans hstep')
            rcases ih hvalue hvalue' with hlt | rfl | hlt
            · exact .inl (.deeper hstep hlt)
            · exact .inr (.inl rfl)
            · exact .inr (.inr (.deeper hstep hlt))
          · exact .inr (.inr (.apart hlt))

/-! ### The order in which properties become fields -/

theorem notMem_of_other {typeKey : String} {declared names : List String}
    (h : name ∈ names.filter fun name => name ≠ typeKey && !declared.contains name) :
    name ∉ declared := by
  simp only [List.mem_filter, Bool.and_eq_true, Bool.not_eq_true', List.contains_eq_mem,
    decide_eq_false_iff_not] at h
  exact h.2.2

/-- Properties become fields in the order of the steps to them. -/
theorem pairwise_fieldOrder (hr : registry.Valid) (hsorted : properties.Sorted) :
    (Tree.fieldOrder registry.typeKey (declaredNames registry properties)
      (properties.map (·.1))).Pairwise fun a b =>
        Step.Before registry (.object properties) (.property a) (.property b) := by
  have hnodup := nodup_declaredNames hr properties
  have hnames : (properties.map (·.1)).Pairwise (· < ·) := List.pairwise_map.mpr hsorted
  refine List.pairwise_append.mpr ⟨?_, ?_, fun a ha b hb => .declared ?_⟩
  · refine List.pairwise_iff_getElem.mpr fun i j hi hj hlt => .declared ?_
    rwa [hnodup.idxOf_getElem, hnodup.idxOf_getElem]
  · exact (hnames.filter _).imp_of_mem fun ha hb hlt =>
      .others (notMem_of_other ha) (notMem_of_other hb) hlt
  · rw [List.idxOf_eq_length (notMem_of_other hb)]
    exact List.idxOf_lt_length_of_mem ha

end Json

end SyntaxPack
