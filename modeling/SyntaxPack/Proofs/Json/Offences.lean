import SyntaxPack.Proofs.Json.Depicted
import SyntaxPack.Proofs.Json.Places
/-!
# SyntaxPack.Proofs.Json.Offences

Which documents cannot be read.

An object becomes a shaped one if the text under the type key is the name of a registered shape.
A document is read if and only if this holds of every object in it; otherwise the error is that of
the first object of which it does not. Building goes through the values in an object or an array
one by one, each with the steps to it behind the path so far (`StepsOutcome`), and these values are
met in the order of the steps.

`Outcome` is what building a value comes to, and it says all of this at once: a result means that
the document is clean, an error that there is a first offence with just this error. It is proved by
induction on the document (`decides`), with the parts of a value as the steps out of it:

* the items of an array in their order, all of them;
* the properties of an object in the order of its fields and then the others, all but the type key.

What is left out is nothing that could offend, since the type key stands for a string (`Covers`).
That two errors cannot both be the first one (`FirstOffence.unique`) gives the equivalence of the
error with the first offence.
-/

namespace SyntaxPack

namespace Json

variable {description : RegistryDescription} {registry : Registry} {json child value : Json}
  {properties : Properties} {items : List Json} {path base : Path} {step : Step}
  {fault fault' : Path → SchemaError}

/-- The text under the type key of an object is the name of a registered shape. -/
def Shaped (registry : Registry) (properties : Properties) : Prop :=
  ∃ name, properties.lookup registry.typeKey = some (.string name) ∧
    ∃ shape ∈ registry.shapes, shape.name = name

/-- What is wrong with an object that cannot become a shaped one, given its place. Only the first
kind of error says where. -/
inductive Offence (registry : Registry) : Json → (Path → SchemaError) → Prop
  | untyped {properties : Properties}
      (h : ∀ name, properties.lookup registry.typeKey ≠ some (.string name)) :
      Offence registry (.object properties) fun path => .untypedObject path registry.typeKey
  | unknown {properties : Properties} {name : String}
      (named : properties.lookup registry.typeKey = some (.string name))
      (h : ∀ shape ∈ registry.shapes, shape.name ≠ name) :
      Offence registry (.object properties) fun _ => .unknownShape name

/-- Every object in a document can become a shaped one. -/
def Clean (registry : Registry) (json : Json) : Prop :=
  ∀ path properties, json.at? path = some (.object properties) → Shaped registry properties

/-- Something is wrong with the object at a path, and nothing with those before it. -/
structure FirstOffence (registry : Registry) (json : Json) (path : Path)
    (fault : Path → SchemaError) : Prop where
  offends : ∃ value, json.at? path = some value ∧ Offence registry value fault
  passed : ∀ other value fault', Path.Before registry json other path →
    json.at? other = some value → ¬ Offence registry value fault'

/-! ### Offences

First offences are put together from those of the parts: behind the first step that leads to one. -/

/-- Only one thing can be wrong with an object. -/
theorem Offence.unique (h : Offence registry value fault) (h' : Offence registry value fault') :
    fault = fault' := by
  cases h with
  | untyped h =>
      cases h' with
      | untyped => rfl
      | unknown named => exact absurd named (h _)
  | unknown named =>
      cases h' with
      | untyped h => exact absurd named (h _)
      | unknown named' =>
          rw [Json.string.inj (Option.some.inj (named.symm.trans named'))]

/-- Nothing is wrong with an object that can become a shaped one, nor with what is no object. -/
theorem not_offence_of_shaped
    (h : ∀ properties, json = .object properties → Shaped registry properties) :
    ¬ Offence registry json fault := by
  intro hoffence
  cases hoffence with
  | untyped hwrong =>
      obtain ⟨name, hnamed, -⟩ := h _ rfl
      exact hwrong name hnamed
  | unknown named hwrong =>
      obtain ⟨name, hnamed, shape, hshape, hname⟩ := h _ rfl
      obtain rfl := Json.string.inj (Option.some.inj (hnamed.symm.trans named))
      exact hwrong shape hshape hname

theorem Clean.not_offence (h : Clean registry json) (hat : json.at? path = some value) :
    ¬ Offence registry value fault := by
  refine not_offence_of_shaped fun properties heq => h path properties ?_
  rw [hat, heq]

/-- A document is clean if it is so itself and all that its steps lead to. -/
theorem clean_of_steps
    (hself : ∀ properties, json = .object properties → Shaped registry properties)
    (hsteps : ∀ step child, json.step? step = some child → Clean registry child) :
    Clean registry json := by
  intro path properties hat
  cases path with
  | nil => exact hself properties (Option.some.inj hat)
  | cons step path =>
      obtain ⟨child, hstep, hchild⟩ := at?_cons.mp hat
      exact hsteps step child hstep path properties hchild

/-- Nothing is wrong with what is no object and has no parts. -/
theorem clean_plain (hsteps : ∀ step, json.step? step = none)
    (hself : ∀ properties, json ≠ .object properties) : Clean registry json := by
  refine clean_of_steps (fun properties heq => absurd heq (hself properties)) ?_
  intro step child hstep
  simp [hsteps step] at hstep

theorem clean_string (text : String) : Clean registry (.string text) :=
  clean_plain (fun step => by cases step <;> rfl) fun _ h => nomatch h

/-- The first offence behind a step is the first of all, if the steps before it lead to none. A path
before it ends here, or takes an earlier step, or the same step and is earlier behind it. -/
theorem FirstOffence.of_step (hself : ∀ fault, ¬ Offence registry json fault)
    (hstep : json.step? step = some child)
    (hbefore : ∀ other value, other.Before registry json step → json.step? other = some value →
      Clean registry value)
    (h : FirstOffence registry child path fault) :
    FirstOffence registry json (step :: path) fault := by
  obtain ⟨value, hvalue, hoffence⟩ := h.offends
  refine ⟨⟨value, at?_cons.mpr ⟨child, hstep, hvalue⟩, hoffence⟩,
    fun other value fault' hlt hat => ?_⟩
  cases hlt with
  | inside =>
      obtain rfl := Option.some.inj hat
      exact hself fault'
  | apart hlt =>
      obtain ⟨between, hother, hat⟩ := at?_cons.mp hat
      exact (hbefore _ between hlt hother).not_offence hat
  | deeper hother hlt =>
      obtain ⟨between, hbetween, hat⟩ := at?_cons.mp hat
      obtain rfl := Option.some.inj (hother.symm.trans hstep)
      obtain rfl := Option.some.inj (hbetween.symm.trans hstep)
      exact h.passed _ value fault' hlt hat

/-- There is at most one first offence. -/
theorem FirstOffence.unique {path' : Path} (h : FirstOffence registry json path fault)
    (h' : FirstOffence registry json path' fault') : path = path' ∧ fault = fault' := by
  obtain ⟨value, hvalue, hoffence⟩ := h.offends
  obtain ⟨value', hvalue', hoffence'⟩ := h'.offends
  rcases Path.before_trichotomy registry hvalue hvalue' with hlt | rfl | hlt
  · exact absurd hoffence (h'.passed path value fault hlt hvalue)
  · obtain rfl := Option.some.inj (hvalue.symm.trans hvalue')
    exact ⟨rfl, hoffence.unique hoffence'⟩
  · exact absurd hoffence' (h.passed path' value' fault' hlt hvalue')

/-! ### What building comes to

The outcome of a value, and of a list of steps out of it. The second knows where in the list it
stopped, which the first needs for finding the first offence. -/

/-- A value is built from a document that is clean, and from no other one. The error of a document
that is not clean is that of its first offence, with the path to it. -/
inductive Outcome {α : Type} (registry : Registry) (json : Json) (base : Path) :
    Except SchemaError α → Prop
  | built {result : α} (clean : Clean registry json) : Outcome registry json base (.ok result)
  | refused {path : Path} {fault : Path → SchemaError}
      (first : FirstOffence registry json path fault) :
      Outcome registry json base (.error (fault (base ++ path)))

/-- What is wrong with a document itself comes before anything in it. -/
theorem outcome_of_offence {α : Type} (h : Offence registry json fault) :
    Outcome registry json base (.error (fault base) : Except SchemaError α) := by
  have hfirst : FirstOffence registry json [] fault := ⟨⟨json, rfl, h⟩, fun _ _ _ hlt => nomatch hlt⟩
  have hrefused : Outcome registry json base (.error (fault (base ++ [])) : Except SchemaError α) :=
    .refused hfirst
  rwa [List.append_nil] at hrefused

/-- Building succeeds just for clean documents. -/
theorem Outcome.ok_iff {α : Type} {result : Except SchemaError α}
    (h : Outcome registry json base result) :
    (∃ built, result = .ok built) ↔ Clean registry json := by
  cases h with
  | built clean => simpa using clean
  | refused first =>
      obtain ⟨value, hvalue, hoffence⟩ := first.offends
      simp only [reduceCtorEq, exists_false, false_iff]
      exact fun hclean => hclean.not_offence hvalue hoffence

/-- Building fails with just the error of the first offence. -/
theorem Outcome.error_iff {α : Type} {result : Except SchemaError α} {e : SchemaError}
    (h : Outcome registry json base result) :
    result = .error e ↔
      ∃ path fault, FirstOffence registry json path fault ∧ e = fault (base ++ path) := by
  cases h with
  | built clean =>
      simp only [reduceCtorEq, false_iff, not_exists, not_and]
      intro path fault hfirst
      obtain ⟨value, hvalue, hoffence⟩ := hfirst.offends
      exact absurd hoffence (clean.not_offence hvalue)
  | @refused path fault first =>
      rw [Except.error.injEq]
      constructor
      · exact fun heq => ⟨path, fault, first, heq.symm⟩
      · rintro ⟨path', fault', first', rfl⟩
        obtain ⟨rfl, rfl⟩ := first.unique first'
        rfl

/-- Values are built one by one from what steps lead to, up to the first one that is not clean. -/
inductive StepsOutcome {α : Type} (registry : Registry) (base : Path) :
    List (Step × Json) → Except SchemaError α → Prop
  | built {steps : List (Step × Json)} {result : α} (clean : ∀ p ∈ steps, Clean registry p.2) :
      StepsOutcome registry base steps (.ok result)
  | refused {steps after : List (Step × Json)} (before : List (Step × Json)) {step : Step}
      {child : Json} {path : Path} {fault : Path → SchemaError}
      (split : steps = before ++ (step, child) :: after)
      (clean : ∀ p ∈ before, Clean registry p.2) (first : FirstOffence registry child path fault) :
      StepsOutcome registry base steps (.error (fault (base ++ step :: path)))

/-- The steps out of a value are taken in their order, and those that are not taken lead to nothing
that is wrong. -/
structure Covers (registry : Registry) (json : Json) (steps : List (Step × Json)) : Prop where
  leads : ∀ p ∈ steps, json.step? p.1 = some p.2
  ordered : steps.Pairwise fun p q => p.1.Before registry json q.1
  covered : ∀ step child, json.step? step = some child →
    (step, child) ∈ steps ∨ Clean registry child

/-- If all that is wrong is behind a step or after it, nothing is wrong before it. -/
theorem Covers.clean_before {before after : List (Step × Json)} {other : Step}
    (h : Covers registry json (before ++ (step, child) :: after))
    (hclean : ∀ p ∈ before, Clean registry p.2) (hlt : other.Before registry json step)
    (hother : json.step? other = some value) : Clean registry value := by
  obtain ⟨-, hordered, -⟩ := List.pairwise_append.mp h.ordered
  rcases h.covered other value hother with hmem | hvalue
  · rcases List.mem_append.mp hmem with hmem | hmem
    · exact hclean _ hmem
    · rcases List.mem_cons.mp hmem with heq | hmem
      · obtain ⟨rfl, rfl⟩ := Prod.mk.inj heq
        exact absurd hlt hlt.asymm
      · exact absurd hlt ((List.pairwise_cons.mp hordered).1 _ hmem).asymm
  · exact hvalue

section Steps

variable {α β γ : Type} {steps : List (Step × Json)} {result : Except SchemaError α}

/-- What comes of the first step decides whether the others are taken. -/
theorem StepsOutcome.cons {rest : α → Except SchemaError β} (finish : α → β → γ)
    (hfirst : Outcome registry child (base ++ [step]) result)
    (hrest : ∀ a, StepsOutcome registry base steps (rest a)) :
    StepsOutcome registry base ((step, child) :: steps)
      (result >>= fun a => rest a >>= fun b => .ok (finish a b)) := by
  cases hfirst with
  | refused first =>
      rw [error_bind, List.append_assoc, List.singleton_append]
      exact .refused [] rfl (fun _ hp => absurd hp List.not_mem_nil) first
  | @built a clean =>
      rw [ok_bind]
      have hmore := hrest a
      generalize rest a = other at hmore ⊢
      cases hmore with
      | built hclean => exact .built fun p hp => (List.mem_cons.mp hp).elim (· ▸ clean) (hclean p)
      | refused before hsplit hclean first =>
          exact .refused ((step, child) :: before) (congrArg _ hsplit)
            (fun p hp => (List.mem_cons.mp hp).elim (· ▸ clean) (hclean p)) first

/-- If all steps out of a value are taken, what comes of them comes of the value. -/
theorem StepsOutcome.outcome (h : StepsOutcome registry base steps result)
    (hsteps : Covers registry json steps)
    (hself : ∀ properties, json = .object properties → Shaped registry properties)
    (finish : α → β) : Outcome registry json base (result >>= fun a => .ok (finish a)) := by
  cases h with
  | built clean =>
      refine .built (clean_of_steps hself fun step child hstep => ?_)
      exact (hsteps.covered step child hstep).elim (clean (step, child)) id
  | @refused after before step child path fault hsplit clean first =>
      subst hsplit
      have hstep := hsteps.leads (step, child) (by simp)
      exact .refused (first.of_step (fun _ => not_offence_of_shaped hself) hstep
        fun other value => hsteps.clean_before clean)

end Steps

/-! ### Items

Items are built with their indices, counted from the one that is given. -/

/-- The steps to the items of an array, the first of which is at a given index. -/
def itemSteps (index : Nat) (items : List Json) : List (Step × Json) :=
  items.mapIdx fun i item => (.item (index + i), item)

theorem itemSteps_cons (index : Nat) (item : Json) (items : List Json) :
    itemSteps index (item :: items) = (.item index, item) :: itemSteps (index + 1) items := by
  simp [itemSteps, List.mapIdx_cons, Nat.add_assoc, Nat.add_comm 1]

theorem covers_items (items : List Json) :
    Covers registry (.array items) (itemSteps 0 items) where
  leads p hp := by
    obtain ⟨i, hi, rfl⟩ := List.mem_mapIdx.mp hp
    simp [step?, hi]
  ordered := by
    refine List.pairwise_iff_getElem.mpr fun i j hi hj hlt => ?_
    simp only [itemSteps, List.getElem_mapIdx, Nat.zero_add]
    exact .items hlt
  covered step child hstep := by
    cases step with
    | property => cases hstep
    | item i =>
        obtain ⟨hi, rfl⟩ := List.getElem?_eq_some_iff.mp hstep
        exact .inl (List.mem_mapIdx.mpr ⟨i, hi, by simp⟩)

/-- A document and what builds its value, wherever the document stands and whatever nodes there are.
-/
def Decides (registry : Registry) (json : Json) : Prop :=
  ∀ base nodes, Outcome registry json base (Tree.builder registry json base nodes)

theorem stepsOutcome_buildItems (hitems : ∀ item ∈ items, Decides registry item) (index : Nat)
    (nodes : Array Node) : StepsOutcome registry base (itemSteps index items)
      (Tree.buildItems base index (Tree.itemBuilders registry items) nodes) := by
  induction items generalizing index nodes with
  | nil => exact .built (by simp [itemSteps])
  | cons item items ih =>
      rw [itemSteps_cons, Tree.itemBuilders, Tree.buildItems]
      exact .cons (fun first rest => (first.1 :: rest.1, rest.2))
        (hitems item List.mem_cons_self (base ++ [.item index]) nodes) fun first =>
          ih (fun other hother => hitems other (List.mem_cons_of_mem item hother)) (index + 1) first.2

/-! ### Properties

Properties are built in the order of the names that are asked for; a name without a property is
passed over. -/

/-- The steps to the properties of the given names, as far as there are any. -/
def propertySteps (properties : Properties) (names : List String) : List (Step × Json) :=
  names.filterMap fun name => (properties.lookup name).map fun value => (.property name, value)

theorem mem_propertySteps {names : List String} : (step, child) ∈ propertySteps properties names ↔
    ∃ name ∈ names, properties.lookup name = some child ∧ step = .property name := by
  simp only [propertySteps, List.mem_filterMap, Option.map_eq_some_iff, Prod.mk.injEq]
  constructor
  · rintro ⟨name, hname, value, hvalue, rfl, rfl⟩
    exact ⟨name, hname, hvalue, rfl⟩
  · rintro ⟨name, hname, hvalue, rfl⟩
    exact ⟨name, hname, child, hvalue, rfl, rfl⟩

theorem stepsOutcome_buildProperties (base : Path) (names : List String) (nodes : Array Node)
    (hproperties : ∀ property ∈ properties, Decides registry property.2) :
    StepsOutcome registry base (propertySteps properties names)
      (Tree.buildProperties base (Tree.propertyBuilders registry properties) names nodes) := by
  induction names generalizing nodes with
  | nil => exact .built (by simp [propertySteps])
  | cons name names ih =>
      rw [Tree.buildProperties, Tree.lookup_propertyBuilders, propertySteps, List.filterMap_cons]
      cases hlookup : properties.lookup name with
      | none => exact ih nodes
      | some value =>
          exact .cons (fun first rest => ((name, first.1) :: rest.1, rest.2))
            (hproperties _ (mem_of_lookup hlookup) (base ++ [.property name]) nodes) fun first =>
              ih first.2

theorem typeKey_notMem_declaredNames (hregistry : description.build = .ok registry)
    (properties : Properties) : registry.typeKey ∉ declaredNames registry properties := by
  rw [declaredNames]
  split
  · exact Registry.typeKey_notMem hregistry _
  · exact List.not_mem_nil

/-- All properties of a shaped object are fields but the type key, whose value is a string. -/
theorem covers_properties (hregistry : description.build = .ok registry)
    (hsorted : properties.Sorted) (hshaped : Shaped registry properties) :
    Covers registry (.object properties) (propertySteps properties
      (Tree.fieldOrder registry.typeKey (declaredNames registry properties)
        (properties.map (·.1)))) where
  leads p hp := by
    obtain ⟨name, -, hlookup, hstep⟩ := mem_propertySteps.mp hp
    rw [hstep]
    exact hlookup
  ordered := by
    have hr := RegistryDescription.valid_of_build hregistry
    refine List.pairwise_filterMap.mpr ((pairwise_fieldOrder hr hsorted).imp ?_)
    intro a b hlt p hp q hq
    obtain ⟨_, -, rfl⟩ := Option.map_eq_some_iff.mp hp
    obtain ⟨_, -, rfl⟩ := Option.map_eq_some_iff.mp hq
    exact hlt
  covered step child hstep := by
    cases step with
    | item => cases hstep
    | property name =>
        -- The value of the type key is a string, in which nothing can be wrong.
        by_cases hkey : name = registry.typeKey
        · obtain ⟨text, htext, -⟩ := hshaped
          obtain rfl := Option.some.inj (htext.symm.trans (hkey ▸ hstep))
          exact .inr (clean_string text)
        · have hname := isSome_lookup.mp (Option.isSome_of_eq_some hstep)
          exact .inl (mem_propertySteps.mpr ⟨name, (Tree.mem_fieldOrder
            (typeKey_notMem_declaredNames hregistry properties) hname).mpr hkey, hstep, rfl⟩)

/-! ### Whole documents

The cases of the induction on documents, one for each kind of value. -/

/-- Objects are refused for what is wrong with them, or else for the first property that is. -/
theorem decides_object (hregistry : description.build = .ok registry) (hsorted : properties.Sorted)
    (hproperties : ∀ property ∈ properties, Decides registry property.2) :
    Decides registry (.object properties) := by
  intro base nodes
  rw [Tree.builder]
  cases hnamed : Tree.typeName? registry properties with
  | none =>
      refine outcome_of_offence (.untyped fun name hlookup => ?_)
      simp [Tree.typeName?_eq_some.mpr hlookup] at hnamed
  | some name =>
      have hlookup := Tree.typeName?_eq_some.mp hnamed
      rw [Tree.buildObject]
      -- The shape is looked up before anything in the object is built.
      cases hshape : registry.lookup name with
      | none =>
          rw [Registry.require_of_lookup_eq_none hshape, error_bind]
          refine outcome_of_offence (.unknown hlookup fun shape hmem hname => ?_)
          simpa [hshape] using Registry.isSome_lookup_iff.mpr ⟨shape, hmem, hname⟩
      | some id =>
          have hshaped : Shaped registry properties :=
            ⟨name, hlookup, Registry.isSome_lookup_iff.mp (Option.isSome_of_eq_some hshape)⟩
          have hsteps := covers_properties hregistry hsorted hshaped
          rw [declaredNames_eq hnamed hshape] at hsteps
          have hfields := stepsOutcome_buildProperties base (Tree.fieldOrder
            registry.typeKey ((registry.fields id).map (·.name)) (properties.map (·.1))) nodes
            hproperties
          rw [Registry.require_eq_ok.mpr hshape, ok_bind, Tree.names_propertyBuilders]
          exact hfields.outcome hsteps (fun other heq => (Json.object.inj heq) ▸ hshaped)
            fun built => Tree.pushAs .object (.object (Object.ofFields name built.1)) built.2

/-- Arrays are refused for the first of their items that is. -/
theorem decides_array (hitems : ∀ item ∈ items, Decides registry item) :
    Decides registry (.array items) := by
  intro base nodes
  rw [Tree.builder]
  exact (stepsOutcome_buildItems hitems 0 nodes).outcome (covers_items items) (by simp)
    fun built => Tree.pushAs .array (.array built.1) built.2

/-- What is no object and has no parts is built. -/
theorem decides_plain {value : Value} (hsteps : ∀ step, json.step? step = none)
    (hself : ∀ properties, json ≠ .object properties)
    (h : ∀ path nodes, Tree.builder registry json path nodes = .ok (value, nodes)) :
    Decides registry json := by
  intro base nodes
  rw [h]
  exact .built (clean_plain hsteps hself)

/-- Every document whose objects have sorted properties decides what is built of it, by induction on
the document. -/
theorem decides (hregistry : description.build = .ok registry) (h : json.Ordered) :
    Decides registry json := by
  induction h with
  | null | boolean _ | integer _ | float _ | string _ =>
      exact decides_plain (fun step => by cases step <;> rfl) (fun _ h => nomatch h) fun _ _ => rfl
  | array _ ih => exact decides_array ih
  | object sorted _ ih => exact decides_object hregistry sorted ih

/-- A tree is built from a clean document, and from no other one. -/
theorem outcome_ofJson (hregistry : description.build = .ok registry) (h : json.Ordered) :
    Outcome registry json [] (Tree.ofJson registry json) := by
  have hbuilt := decides hregistry h [] #[]
  unfold Tree.ofJson
  generalize Tree.builder registry json [] #[] = result at hbuilt
  cases hbuilt with
  | built clean => exact .built clean
  | refused first => exact .refused first

end Json

end SyntaxPack
