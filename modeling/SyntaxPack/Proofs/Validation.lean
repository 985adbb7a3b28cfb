import SyntaxPack.Proofs.Registry
/-!
# SyntaxPack.Proofs.Validation

Which descriptions make a registry, and what is reported of the others.

A description is checked name by name, then field by field. `Check` is what is checked at one place,
`Check.Before` the order of the checks, and `Violates` says which check fails with which error, with
no regard to the others. A registry is built if and only if the description is well-formed
(`exists_registry_iff`), and otherwise the error is that of the first check that fails
(`build_eq_error_iff`). `BuiltFrom` is what a registry has from its description.

The reported error is characterized in three steps:

* a description of which a registry is built violates nothing (`not_violates_of_build`);
* one that is refused is refused with the error of a first violation
  (`exists_firstViolation_of_build`), found by following the loops to the place where they stopped;
* there is at most one first violation (`FirstViolation.unique`), so the second step can be
  reversed.

For the last one a single check must not fail in two ways. The name of a shape is the only check
that could: it may be reserved and a duplicate at once. But then an earlier shape has the reserved
name, too, and its check fails before.
-/

namespace SyntaxPack.RegistryDescription

variable {d : RegistryDescription} {before : List String} {name : String} {shape : ShapeDescription}
  {field : FieldDescription} {e : SchemaError} {i k : Nat}

/-! ### Checks and their order

The order is lexicographic, with all names of shapes in front. It is spelled out as a relation with
a constructor for each reason to come first, so that case splits give that reason. -/

/-- What is checked of a field. -/
inductive Rule where
  /-- Its name is not the type key. -/
  | typeKey
  /-- No field before it has its name. -/
  | duplicate
  /-- Its type can be read. -/
  | declaration
  deriving DecidableEq, Repr

/-- The place of a rule among those for a field. -/
def Rule.rank : Rule → Nat
  | typeKey => 0
  | duplicate => 1
  | declaration => 2

/-- What is checked at one place of a description. -/
inductive Check where
  /-- The name of a shape. -/
  | name (shape : Nat)
  /-- A rule for a field of a shape. -/
  | field (shape field : Nat) (rule : Rule)
  deriving DecidableEq, Repr

/-- The order of the checks: all names of shapes, then shape by shape and field by field. -/
inductive Check.Before : Check → Check → Prop
  | names {i j : Nat} (h : i < j) : Before (.name i) (.name j)
  | fields {i j k : Nat} {rule : Rule} : Before (.name i) (.field j k rule)
  | shape {i j k l : Nat} {rule rule' : Rule} (h : i < j) :
    Before (.field i k rule) (.field j l rule')
  | field {i k l : Nat} {rule rule' : Rule} (h : k < l) :
    Before (.field i k rule) (.field i l rule')
  | rule {i k : Nat} {rule rule' : Rule} (h : rule.rank < rule'.rank) :
    Before (.field i k rule) (.field i k rule')

theorem Rule.rank_inj {rule rule' : Rule} (h : rule.rank = rule'.rank) : rule = rule' := by
  cases rule <;> cases rule' <;> first | rfl | simp [rank] at h

/-- One of two checks comes first, unless they are the same check. -/
theorem Check.before_trichotomy (a b : Check) : a.Before b ∨ a = b ∨ b.Before a := by
  cases a with
  | name i =>
      cases b with
      | name j =>
          rcases Nat.lt_trichotomy i j with h | rfl | h
          · exact .inl (.names h)
          · exact .inr (.inl rfl)
          · exact .inr (.inr (.names h))
      | field => exact .inl .fields
  | field i k rule =>
      cases b with
      | name => exact .inr (.inr .fields)
      | field j l rule' =>
          rcases Nat.lt_trichotomy i j with h | rfl | h
          · exact .inl (.shape h)
          · rcases Nat.lt_trichotomy k l with h | rfl | h
            · exact .inl (.field h)
            · rcases Nat.lt_trichotomy rule.rank rule'.rank with h | h | h
              · exact .inl (.rule h)
              · exact .inr (.inl (Rule.rank_inj h ▸ rfl))
              · exact .inr (.inr (.rule h))
            · exact .inr (.inr (.field h))
          · exact .inr (.inr (.shape h))

/-! ### Violations

What is wrong with a name or a field depends on the names before it and on nothing else. Being a
violation does not mean that it is what is reported. -/

/-- What is wrong with the name of a shape, given the names before it. Both may be wrong at once. -/
inductive BadName (before : List String) (name : String) : SchemaError → Prop
  | reserved {b : Builtin} (same : b.name = name) : BadName before name (.reservedShapeName name)
  | duplicate (mem : name ∈ before) : BadName before name (.duplicateShape name)

/-- What is wrong with a field, by the rules, given the names of the fields before it. -/
inductive BadField (d : RegistryDescription) (shape : String) (before : List String)
    (field : FieldDescription) : Rule → SchemaError → Prop
  | typeKey (same : field.name = d.typeKey) :
    BadField d shape before field .typeKey (.typeKeyCollision shape field.name)
  | duplicate (mem : field.name ∈ before) :
    BadField d shape before field .duplicate (.duplicateField shape field.name)
  | declaration {fault : Declaration.Fault}
    (malformed : Declaration.parse d.lookup field.type = .error fault) :
    BadField d shape before field .declaration
      (.invalidDeclaration shape field.name field.type fault)

/-- A check fails, with an error. -/
inductive Violates (d : RegistryDescription) : Check → SchemaError → Prop
  | name {i : Nat} {shape : ShapeDescription} {e : SchemaError} (hshape : d.shapes[i]? = some shape)
    (bad : BadName ((d.shapes.take i).map (·.name)) shape.name e) : Violates d (.name i) e
  | field {i k : Nat} {shape : ShapeDescription} {field : FieldDescription} {rule : Rule}
    {e : SchemaError} (hshape : d.shapes[i]? = some shape) (hfield : shape.fields[k]? = some field)
    (bad : BadField d shape.name ((shape.fields.take k).map (·.name)) field rule e) :
    Violates d (.field i k rule) e

/-- A check fails, with an error, and all checks before it pass. -/
structure FirstViolation (d : RegistryDescription) (check : Check) (e : SchemaError) : Prop where
  violates : Violates d check e
  passed : ∀ other e', other.Before check → ¬ Violates d other e'

/-- What every description of a registry has: names of shapes and of fields that are different from
one another and not reserved, and types that can be read. -/
structure WellFormed (d : RegistryDescription) : Prop where
  names_nodup : (d.shapes.map (·.name)).Nodup
  not_builtin : ∀ shape ∈ d.shapes, ∀ b : Builtin, b.name ≠ shape.name
  fields_nodup : ∀ shape ∈ d.shapes, (shape.fields.map (·.name)).Nodup
  not_typeKey : ∀ shape ∈ d.shapes, ∀ field ∈ shape.fields, field.name ≠ d.typeKey
  declared : ∀ shape ∈ d.shapes, ∀ field ∈ shape.fields,
    ∃ type, Declaration.parse d.lookup field.type = .ok type

/-! ### Names

The check of names goes through the list with the names before the present one, in reverse. So the
names before are compared as sets (`BadName.mono`). -/

theorem notMem_take_of_nodup {α β : Type} {f : α → β} {xs : List α} {x : α}
    (h : (xs.map f).Nodup) (hx : xs[i]? = some x) : f x ∉ (xs.take i).map f := by
  intro hmem
  obtain ⟨hlt, rfl⟩ := List.getElem?_eq_some_iff.mp hx
  rw [← List.take_append_drop i xs, List.drop_eq_getElem_cons hlt, List.map_append, List.map_cons,
    List.nodup_append] at h
  exact h.2.2 _ hmem _ List.mem_cons_self rfl

theorem BadName.mono {before' : List String} (h : BadName before name e)
    (hsub : ∀ other ∈ before, other ∈ before') : BadName before' name e := by
  cases h with
  | reserved same => exact .reserved same
  | duplicate mem => exact .duplicate (hsub _ mem)

/-- Only one thing can be wrong with a name, if one of a built-in tag does not occur before. -/
theorem BadName.unique {e' : SchemaError} (h : BadName before name e) (h' : BadName before name e')
    (hreserved : ∀ {b : Builtin}, b.name = name → name ∉ before) : e = e' := by
  cases h with
  | reserved same =>
      cases h' with
      | reserved => rfl
      | duplicate mem => exact absurd mem (hreserved same)
  | duplicate mem =>
      cases h' with
      | reserved same => exact absurd mem (hreserved same)
      | duplicate => rfl

/-- Names that pass are not wrong in any way. -/
theorem not_badName_of_checkNames {shapes : List ShapeDescription}
    (h : checkNames [] (shapes.map (·.name)) = .ok ()) (hshape : shapes[i]? = some shape) :
    ¬ BadName ((shapes.take i).map (·.name)) shape.name e := by
  obtain ⟨hnodup, hnames⟩ := checkNames_eq_ok.mp h
  intro hbad
  cases hbad with
  | reserved same =>
      have hname := (hnames _ (List.mem_map_of_mem (List.mem_of_getElem? hshape))).2
      exact Builtin.ofName?_eq_none_iff.mp hname _ same
  | duplicate mem => exact notMem_take_of_nodup hnodup hshape mem

/-- Names are refused at the first one that is wrong. All names before it pass the check, which is
what makes it the first. -/
theorem checkNames_eq_error {names : List String} (h : checkNames before names = .error e) :
    ∃ done name rest, names = done ++ name :: rest ∧ checkNames before done = .ok () ∧
      BadName (done.reverse ++ before) name e := by
  induction names generalizing before with
  | nil => simp [checkNames] at h
  | cons name names ih =>
      simp only [checkNames] at h
      split at h
      · rename_i hbuiltin
        obtain rfl := Except.error.inj h
        obtain ⟨b, hb⟩ := Option.isSome_iff_exists.mp hbuiltin
        exact ⟨[], name, names, rfl, rfl, .reserved (by simpa using List.find?_some hb)⟩
      · rename_i hbuiltin
        split at h
        · rename_i hbefore
          obtain rfl := Except.error.inj h
          exact ⟨[], name, names, rfl, rfl, .duplicate (by simpa using hbefore)⟩
        · rename_i hbefore
          obtain ⟨done, other, rest, rfl, hdone, hbad⟩ := ih h
          refine ⟨name :: done, other, rest, rfl, ?_, by simpa using hbad⟩
          rw [checkNames, if_neg hbuiltin, if_neg hbefore, hdone]

/-! ### Fields

A field is checked by three rules in turn, and a rule is only tried if the ones before it are
satisfied. -/

theorem BadField.mono {before' : List String} {owner : String} {rule : Rule}
    (h : BadField d owner before field rule e) (hsub : ∀ other ∈ before, other ∈ before') :
    BadField d owner before' field rule e := by
  cases h with
  | typeKey same => exact .typeKey same
  | duplicate mem => exact .duplicate (hsub _ mem)
  | declaration malformed => exact .declaration malformed

/-- By one rule, only one thing can be wrong with a field. -/
theorem BadField.unique {owner : String} {rule : Rule} {e' : SchemaError}
    (h : BadField d owner before field rule e) (h' : BadField d owner before field rule e') :
    e = e' := by
  cases h with
  | typeKey => cases h'; rfl
  | duplicate => cases h'; rfl
  | declaration malformed =>
      cases h' with
      | declaration malformed' => rw [Except.error.inj (malformed.symm.trans malformed')]

/-- Fields that are built are not wrong in any way. -/
theorem not_badField_of_buildFields {owner : String} {fields : List FieldDescription}
    {built : List Field} {rule : Rule} (h : d.buildFields owner [] fields = .ok built)
    (hfield : fields[k]? = some field) :
    ¬ BadField d owner ((fields.take k).map (·.name)) field rule e := by
  obtain ⟨hbuilt, hnodup, hnames⟩ := buildFields_eq_ok.mp h
  have hmem := List.mem_of_getElem? hfield
  intro hbad
  cases hbad with
  | typeKey same => exact (hnames field hmem).1 same
  | duplicate mem => exact notMem_take_of_nodup hnodup hfield mem
  | declaration malformed =>
      obtain ⟨_, -, hfield⟩ := exists_right_of_forall₂ hbuilt hmem
      simpa [malformed] using hfield.type

/-- A field is refused by the first rule that it breaks. The cases are the branches of the check, in
order, and each of them knows that the earlier ones were not taken. -/
theorem buildField_eq_error {owner : String} (h : d.buildField owner before field = .error e) :
    ∃ rule, BadField d owner before field rule e ∧
      ∀ other e', other.rank < rule.rank → ¬ BadField d owner before field other e' := by
  simp only [buildField] at h
  split at h
  · rename_i hkey
    obtain rfl := Except.error.inj h
    exact ⟨.typeKey, .typeKey hkey, fun other e' hlt => absurd hlt (Nat.not_lt_zero _)⟩
  · rename_i hkey
    split at h
    · rename_i hbefore
      obtain rfl := Except.error.inj h
      refine ⟨.duplicate, .duplicate (by simpa using hbefore), fun other e' hlt hbad => ?_⟩
      cases hbad with
      | typeKey same => exact hkey same
      | duplicate | declaration => simp [Rule.rank] at hlt
    · rename_i hbefore
      split at h
      · simp at h
      · rename_i malformed
        obtain rfl := Except.error.inj h
        refine ⟨.declaration, .declaration malformed, fun other e' hlt hbad => ?_⟩
        cases hbad with
        | typeKey same => exact hkey same
        | duplicate mem => exact hbefore (by simpa using mem)
        | declaration => simp [Rule.rank] at hlt

/-- Fields are refused at the first one that is, and all fields before it are built. -/
theorem buildFields_eq_error {owner : String} {fields : List FieldDescription}
    (h : d.buildFields owner before fields = .error e) :
    ∃ done field rest built, fields = done ++ field :: rest ∧
      d.buildFields owner before done = .ok built ∧
      d.buildField owner ((done.map (·.name)).reverse ++ before) field = .error e := by
  induction fields generalizing before with
  | nil => simp [buildFields] at h
  | cons field fields ih =>
      rw [buildFields, bind_eq_error] at h
      rcases h with h | ⟨head, hhead, h⟩
      · exact ⟨[], field, fields, [], rfl, rfl, h⟩
      · rcases bind_eq_error.mp h with h | ⟨tail, -, h⟩
        · obtain ⟨done, other, rest, built, rfl, hdone, hother⟩ := ih h
          refine ⟨field :: done, other, rest, head :: built, rfl, ?_, by simpa using hother⟩
          rw [buildFields, hhead, ok_bind, hdone, ok_bind]
        · simp at h

theorem buildShape_eq_error :
    d.buildShape shape = .error e ↔ d.buildFields shape.name [] shape.fields = .error e := by
  simp [buildShape, bind_eq_error]

/-! ### Registries

Both directions of the equivalence, and then the errors. Only names come into the declarations, so
that a description is well-formed can be said without a registry. -/

/-- A description of which a registry is built is well-formed. -/
theorem wellFormed_of_build {registry : Registry} (h : d.build = .ok registry) :
    WellFormed d := by
  obtain ⟨hnames, -, hall⟩ := build_eq_ok.mp h
  obtain ⟨hnodup, hbuiltin⟩ := checkNames_eq_ok.mp hnames
  have hfields : ∀ shape ∈ d.shapes, ∃ built : Shape,
      d.buildFields shape.name [] shape.fields = .ok built.fields := by
    intro shape hshape
    obtain ⟨built, -, -, hbuilt⟩ := exists_right_of_forall₂ hall hshape
    exact ⟨built, hbuilt⟩
  refine ⟨hnodup, fun shape hshape => ?_, fun shape hshape => ?_,
    fun shape hshape field hfield => ?_, fun shape hshape field hfield => ?_⟩
  · exact Builtin.ofName?_eq_none_iff.mp (hbuiltin _ (List.mem_map_of_mem hshape)).2
  · obtain ⟨built, hbuilt⟩ := hfields shape hshape
    exact (buildFields_eq_ok.mp hbuilt).2.1
  · obtain ⟨built, hbuilt⟩ := hfields shape hshape
    exact ((buildFields_eq_ok.mp hbuilt).2.2 field hfield).1
  · obtain ⟨built, hbuilt⟩ := hfields shape hshape
    obtain ⟨other, -, hother⟩ := exists_right_of_forall₂ (buildFields_eq_ok.mp hbuilt).1 hfield
    exact ⟨other.type, hother.type⟩

/-- The fields of a shape of a well-formed description are built. -/
theorem WellFormed.exists_buildFields (h : WellFormed d) (hshape : shape ∈ d.shapes) :
    ∃ fields, d.buildFields shape.name [] shape.fields = .ok fields := by
  have hfields : ∀ field ∈ shape.fields, ∃ built, d.BuiltField field built := by
    intro field hfield
    obtain ⟨type, htype⟩ := h.declared shape hshape field hfield
    exact ⟨⟨field.name, field.type, type⟩, rfl, rfl, htype⟩
  obtain ⟨fields, hall⟩ := exists_forall₂ hfields
  exact ⟨fields, buildFields_eq_ok.mpr ⟨hall, h.fields_nodup shape hshape,
    fun field hfield => ⟨h.not_typeKey shape hshape field hfield, List.not_mem_nil⟩⟩⟩

/-- A registry is built if and only if its description is well-formed. -/
theorem exists_registry_iff : (∃ registry, d.build = .ok registry) ↔ WellFormed d := by
  constructor
  · rintro ⟨registry, h⟩
    exact wellFormed_of_build h
  · intro h
    have hshapes : ∀ shape ∈ d.shapes, ∃ built : Shape, built.name = shape.name ∧
        d.buildFields shape.name [] shape.fields = .ok built.fields := by
      intro shape hshape
      obtain ⟨fields, hfields⟩ := h.exists_buildFields hshape
      exact ⟨⟨shape.name, fields⟩, rfl, hfields⟩
    obtain ⟨shapes, hall⟩ := exists_forall₂ hshapes
    have hnames : checkNames [] (d.shapes.map (·.name)) = .ok () := by
      refine checkNames_eq_ok.mpr ⟨h.names_nodup, fun name hname => ⟨List.not_mem_nil, ?_⟩⟩
      obtain ⟨shape, hshape, rfl⟩ := List.mem_map.mp hname
      exact Builtin.ofName?_eq_none_iff.mpr (h.not_builtin shape hshape)
    exact ⟨⟨d.typeKey, shapes⟩, build_eq_ok.mpr ⟨hnames, rfl, hall⟩⟩

/-- A description of which a registry is built passes all checks. -/
theorem not_violates_of_build {registry : Registry} {check : Check} (h : d.build = .ok registry) :
    ¬ Violates d check e := by
  obtain ⟨hnames, -, hall⟩ := build_eq_ok.mp h
  intro hbad
  cases hbad with
  | name hshape bad => exact not_badName_of_checkNames hnames hshape bad
  | field hshape hfield bad =>
      obtain ⟨built, -, -, hbuilt⟩ := exists_right_of_forall₂ hall (List.mem_of_getElem? hshape)
      exact not_badField_of_buildFields hbuilt hfield bad

/-- Names that fail do so at the first check of all that fails. -/
theorem firstViolation_of_checkNames (h : checkNames [] (d.shapes.map (·.name)) = .error e) :
    ∃ check, FirstViolation d check e := by
  obtain ⟨done, _, rest, hnames, hdone, hbad⟩ := checkNames_eq_error h
  obtain ⟨done, _, hshapes, rfl, hrest⟩ := List.map_eq_append_iff.mp hnames
  obtain ⟨shape, rest, rfl, rfl, rfl⟩ := List.map_eq_cons_iff.mp hrest
  have hshape : d.shapes[done.length]? = some shape := by simp [hshapes]
  refine ⟨.name done.length, .name hshape (hbad.mono (by simp [hshapes])),
    fun other e' hlt hother => ?_⟩
  -- Before the name of a shape there are only names.
  cases hlt with
  | names hlt =>
      cases hother with
      | name hother bad =>
          rw [hshapes, List.getElem?_append_left hlt] at hother
          rw [hshapes, List.take_append_of_le_length (Nat.le_of_lt hlt)] at bad
          exact not_badName_of_checkNames hdone hother bad

/-- Fields that fail do so at the first check of all that fails. -/
theorem firstViolation_of_mapM (hnames : checkNames [] (d.shapes.map (·.name)) = .ok ())
    (h : d.shapes.mapM d.buildShape = .error e) : ∃ check, FirstViolation d check e := by
  obtain ⟨done, shape, rest, built, hshapes, hdone, hshape⟩ := mapM_eq_error h
  obtain ⟨doneFields, field, restFields, builtFields, hfields, hdoneFields, hfield⟩ :=
    buildFields_eq_error (buildShape_eq_error.mp hshape)
  obtain ⟨rule, hbad, hrules⟩ := buildField_eq_error hfield
  have hshape : d.shapes[done.length]? = some shape := by simp [hshapes]
  have hfield : shape.fields[doneFields.length]? = some field := by simp [hfields]
  have hbefore : ∀ name, name ∈ (shape.fields.take doneFields.length).map (·.name) ↔
      name ∈ (doneFields.map (·.name)).reverse ++ [] := by simp [hfields]
  refine ⟨.field done.length doneFields.length rule,
    .field hshape hfield (hbad.mono fun name => (hbefore name).mpr), fun other e' hlt hother => ?_⟩
  -- An earlier check is that of a name, which passed, or of an earlier shape, of an earlier
  -- field, or by an earlier rule.
  cases hother with
  | name hother bad => exact not_badName_of_checkNames hnames hother bad
  | @field i k other otherField otherRule _ hother hotherField bad =>
      cases hlt with
      | shape hlt =>
          rw [hshapes, List.getElem?_append_left hlt] at hother
          obtain ⟨_, -, hbuilt⟩ :=
            exists_right_of_forall₂ (mapM_eq_ok.mp hdone) (List.mem_of_getElem? hother)
          exact not_badField_of_buildFields (buildShape_eq_ok.mp hbuilt).2 hotherField bad
      | field hlt =>
          obtain rfl := Option.some.inj (hother.symm.trans hshape)
          rw [hfields, List.getElem?_append_left hlt] at hotherField
          rw [hfields, List.take_append_of_le_length (Nat.le_of_lt hlt)] at bad
          exact not_badField_of_buildFields hdoneFields hotherField bad
      | rule hlt =>
          obtain rfl := Option.some.inj (hother.symm.trans hshape)
          obtain rfl := Option.some.inj (hotherField.symm.trans hfield)
          exact hrules otherRule e' hlt (bad.mono fun name => (hbefore name).mp)

/-- What is reported of a description is what the first check that fails says. Names are checked
before fields, so the cases are those of the two loops. -/
theorem exists_firstViolation_of_build (h : d.build = .error e) :
    ∃ check, FirstViolation d check e := by
  rcases bind_eq_error.mp h with h | ⟨_, hnames, h⟩
  · exact firstViolation_of_checkNames h
  · rcases bind_eq_error.mp h with h | ⟨shapes, -, h⟩
    · exact firstViolation_of_mapM hnames h
    · simp at h

/-- A name that is that of a built-in tag is so at its first occurrence. So it is not reported as a
duplicate. -/
theorem FirstViolation.notMem_of_reserved {b : Builtin} (h : FirstViolation d (.name i) e)
    (same : b.name = shape.name) : shape.name ∉ (d.shapes.take i).map (·.name) := by
  intro hmem
  obtain ⟨earlier, hearlier, hname⟩ := List.mem_map.mp hmem
  obtain ⟨j, hj⟩ := List.mem_iff_getElem?.mp hearlier
  rw [List.getElem?_take] at hj
  split at hj
  · rename_i hlt
    exact h.passed _ _ (.names hlt) (.name hj (.reserved (same.trans hname.symm)))
  · simp at hj

/-- There is at most one first check that fails, with one error. -/
theorem FirstViolation.unique {check check' : Check} {e' : SchemaError}
    (h : FirstViolation d check e) (h' : FirstViolation d check' e') : e = e' := by
  rcases Check.before_trichotomy check check' with hlt | rfl | hlt
  · exact absurd h.violates (h'.passed _ _ hlt)
  · cases h.violates with
    | name hshape bad =>
        cases h'.violates with
        | name hshape' bad' =>
            obtain rfl := Option.some.inj (hshape.symm.trans hshape')
            exact bad.unique bad' fun same => h.notMem_of_reserved same
    | field hshape hfield bad =>
        cases h'.violates with
        | field hshape' hfield' bad' =>
            obtain rfl := Option.some.inj (hshape.symm.trans hshape')
            obtain rfl := Option.some.inj (hfield.symm.trans hfield')
            exact bad.unique bad'
  · exact absurd h'.violates (h.passed _ _ hlt)

/-- The error is that of the first check that fails. -/
theorem build_eq_error_iff : d.build = .error e ↔ ∃ check, FirstViolation d check e := by
  constructor
  · exact exists_firstViolation_of_build
  · rintro ⟨check, hfirst⟩
    cases hbuild : d.build with
    | ok registry => exact absurd hfirst.violates (not_violates_of_build hbuild)
    | error e' =>
        obtain ⟨check', hfirst'⟩ := exists_firstViolation_of_build hbuild
        rw [hfirst'.unique hfirst]

/-! ### What is built

Shapes keep their places, so what a declaration refers to is the same before and after. -/

theorem lookup_isSome_iff : (d.lookup name).isSome ↔ ∃ shape ∈ d.shapes, shape.name = name := by
  simp [lookup]

/-- A registry is built from its description, shape by shape and field by field. -/
structure BuiltFrom (d : RegistryDescription) (registry : Registry) : Prop where
  typeKey : registry.typeKey = d.typeKey
  /-- Every shape keeps its place, its name and its fields with their order. -/
  shapes : List.Forall₂ (fun shape built => built.name = shape.name ∧
    List.Forall₂ d.BuiltField shape.fields built.fields) d.shapes registry.shapes
  /-- Shapes are found as they were when their declarations were read. -/
  lookup : registry.lookup = d.lookup
  /-- A shape is found under its name, and under no other. -/
  lookup_iff : ∀ name id, registry.lookup name = some id ↔
    ∃ shape, registry.shapes[id.index]? = some shape ∧ shape.name = name
  /-- Every shape that is named anywhere in a declared type is registered. -/
  declared : ∀ shape ∈ registry.shapes, ∀ field ∈ shape.fields, ∀ id ∈ field.type.shapeIds,
    id.index < registry.shapes.length

theorem builtFrom_of_build {registry : Registry} (h : d.build = .ok registry) :
    BuiltFrom d registry := by
  obtain ⟨-, hkey, hall⟩ := build_eq_ok.mp h
  have hvalid := valid_of_build h
  refine ⟨hkey, hall.imp fun shape built hbuilt => ⟨hbuilt.1, (buildFields_eq_ok.mp hbuilt.2).1⟩,
    ?_, fun name id => ⟨fun hlookup => ?_, ?_⟩, hvalid.declared⟩
  · have hnames : registry.shapes.map (·.name) = d.shapes.map (·.name) :=
      map_eq_of_forall₂ hall.flip fun _ _ hbuilt => hbuilt.1
    funext name
    simpa [Registry.lookup, lookup, List.findIdx?_map, Function.comp_def] using
      congrArg (fun names => (names.findIdx? (· = name)).map ShapeId.mk) hnames
  · obtain ⟨hlt, rfl⟩ := Registry.lookup_eq_some hlookup
    exact ⟨_, Registry.get?_eq_some hlt, (Registry.shapeName_eq hlt).symm⟩
  · rintro ⟨shape, hshape, rfl⟩
    obtain ⟨hlt, rfl⟩ := List.getElem?_eq_some_iff.mp hshape
    rw [← Registry.shapeName_eq hlt]
    exact hvalid.lookup_shapeName hlt

/-! ### Validation as a whole

The parts are put together for every description, without a hypothesis on it. -/

/-- Building a registry accepts just the descriptions that are well-formed. -/
structure Validated (d : RegistryDescription) : Prop where
  /-- What is accepted. -/
  accepts : (∃ registry, d.build = .ok registry) ↔ WellFormed d
  /-- Everything else is refused at the first check that fails. -/
  refuses : ∀ e, d.build = .error e ↔ ∃ check, FirstViolation d check e
  /-- What is made of an accepted description. -/
  builds : ∀ registry, d.build = .ok registry → BuiltFrom d registry
  /-- A declaration can name all shapes, those of the same shape and of later ones included. -/
  resolves : ∀ name, (d.lookup name).isSome ↔ ∃ shape ∈ d.shapes, shape.name = name

/-- Every description is validated exactly. -/
theorem validated (d : RegistryDescription) : Validated d where
  accepts := exists_registry_iff
  refuses _ := build_eq_error_iff
  builds _ := builtFrom_of_build
  resolves _ := lookup_isSome_iff

end SyntaxPack.RegistryDescription
