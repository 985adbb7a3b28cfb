import Mathlib.Data.List.Nodup
import SyntaxPack.Shape.Codec
import SyntaxPack.Proofs.Declaration.Grammar
import SyntaxPack.Proofs.Monad
/-!
# SyntaxPack.Proofs.Registry

What building a registry establishes.

`Registry.Valid` collects what every built registry has: distinct shape names, none
of them that of a built-in tag, distinct field names within each shape, and
declarations that name registered shapes only. Encoder and decoder rely on these
and check none of them again.
-/

namespace SyntaxPack

namespace Builtin

theorem mem_all (b : Builtin) : b ∈ all := by
  cases b <;> decide

theorem ofName?_name (b : Builtin) : ofName? b.name = some b := by
  cases b <;> rfl

theorem name_inj {a b : Builtin} (h : a.name = b.name) : a = b :=
  Option.some.inj (by rw [← ofName?_name a, h, ofName?_name b])

theorem ofName?_eq_none_iff {name : String} :
    ofName? name = none ↔ ∀ b : Builtin, b.name ≠ name := by
  simp [ofName?, mem_all]

end Builtin

namespace TypeDecl

mutual

/-- The shapes that a declared type names. -/
def shapeIds : TypeDecl → List ShapeId
  | shape id => [id]
  | arrayOf element => element.shapeIds
  | nullable inner => inner.shapeIds
  | union members => memberShapeIds members
  | _ => []

/-- The shapes that the types of a list name. -/
def memberShapeIds : List TypeDecl → List ShapeId
  | [] => []
  | member :: members => member.shapeIds ++ memberShapeIds members

end

theorem mem_memberShapeIds {members : List TypeDecl} {id : ShapeId} :
    id ∈ memberShapeIds members ↔ ∃ member ∈ members, id ∈ member.shapeIds := by
  induction members with
  | nil => simp [memberShapeIds]
  | cons member members ih => simp [memberShapeIds, ih]

end TypeDecl

namespace Declaration

variable {lookup : String → Option ShapeId}

/-- The shapes that a declaration names have been looked up. -/
def Resolved (lookup : String → Option ShapeId) (decl : TypeDecl) : Prop :=
  ∀ id ∈ decl.shapeIds, ∃ name, lookup name = some id

theorem resolved_of_names {name : String} {decl : TypeDecl} (h : Names lookup name decl) :
    Resolved lookup decl := by
  intro id hid
  cases h with
  | kind hkind =>
      have hkinds : ∀ kind ∈ kinds, kind.2.shapeIds = [] := by simp [kinds, TypeDecl.shapeIds]
      simp [hkinds _ hkind] at hid
  | @shape found _ _ hfound =>
      obtain rfl : id = found := by simpa [TypeDecl.shapeIds] using hid
      exact ⟨name, hfound⟩

theorem resolved_of_derivesMember {tokens : List Token} {decl : TypeDecl}
    (h : DerivesMember lookup tokens decl) : Resolved lookup decl := by
  induction h with
  | name names => exact resolved_of_names names
  | array _ ih | nullable _ _ ih | already _ _ ih => exact ih

theorem resolved_of_derives {tokens : List Token} {members : List TypeDecl}
    (h : Derives lookup tokens members) : ∀ member ∈ members, Resolved lookup member := by
  induction h with
  | one own => simpa using resolved_of_derivesMember own
  | more _ own ih =>
      rw [List.forall_mem_append]
      exact ⟨ih, by simpa using resolved_of_derivesMember own⟩

theorem resolved_ofMembers {members : List TypeDecl}
    (h : ∀ member ∈ members, Resolved lookup member) : Resolved lookup (ofMembers members) := by
  unfold ofMembers
  split
  · exact h _ List.mem_cons_self
  · intro id hid
    obtain ⟨member, hmember, hid⟩ := TypeDecl.mem_memberShapeIds.mp hid
    exact h member hmember id hid

/-- A declaration that can be read names only shapes that are found. -/
theorem resolved_of_parse {text : String} {decl : TypeDecl} (h : parse lookup text = .ok decl) :
    Resolved lookup decl := by
  obtain ⟨members, hderives, rfl⟩ := derives_of_parseLexemes h
  exact resolved_ofMembers (resolved_of_derives hderives)

end Declaration

/-! ### Valid registries -/

/-- What every built registry has. -/
structure Registry.Valid (registry : Registry) : Prop where
  names_nodup : (registry.shapes.map (·.name)).Nodup
  not_builtin : ∀ shape ∈ registry.shapes, Builtin.ofName? shape.name = none
  fields_nodup : ∀ shape ∈ registry.shapes, shape.fieldNames.Nodup
  declared : ∀ shape ∈ registry.shapes, ∀ field ∈ shape.fields, ∀ id ∈ field.type.shapeIds,
    id.index < registry.shapes.length

namespace RegistryDescription

variable {description : RegistryDescription}

theorem checkNames_eq_ok {before names : List String} : checkNames before names = .ok () ↔
    names.Nodup ∧ ∀ name ∈ names, name ∉ before ∧ Builtin.ofName? name = none := by
  induction names generalizing before with
  | nil => simp [checkNames]
  | cons name names ih =>
      rw [checkNames, List.nodup_cons, List.forall_mem_cons]
      split
      · rename_i hbuiltin
        obtain ⟨b, hb⟩ := Option.isSome_iff_exists.mp hbuiltin
        simp [hb]
      · rename_i hbuiltin
        split
        · rename_i hbefore
          simp_all
        · rename_i hbefore
          have hname : name ∉ before ∧ Builtin.ofName? name = none := by simp_all
          simp only [ih, List.mem_cons, not_or]
          grind

/-- A field is built from its description, with the type that is declared. -/
structure BuiltField (description : RegistryDescription) (field : FieldDescription)
    (built : Field) : Prop where
  name : built.name = field.name
  source : built.source = field.type
  type : Declaration.parse description.lookup field.type = .ok built.type

theorem BuiltField.resolved {field : FieldDescription} {built : Field}
    (h : description.BuiltField field built) :
    Declaration.Resolved description.lookup built.type :=
  Declaration.resolved_of_parse h.type

theorem buildField_eq_ok {shape : String} {before : List String} {field : FieldDescription}
    {built : Field} : description.buildField shape before field = .ok built ↔
      description.BuiltField field built ∧ field.name ≠ description.typeKey ∧
        field.name ∉ before := by
  constructor
  · intro h
    simp only [buildField] at h
    split at h
    · simp at h
    · rename_i hkey
      split at h
      · simp at h
      · rename_i hbefore
        split at h
        · rename_i type htype
          obtain rfl := Except.ok.inj h
          exact ⟨⟨rfl, rfl, htype⟩, hkey, by simpa using hbefore⟩
        · simp at h
  · rintro ⟨⟨hname, hsource, htype⟩, hkey, hbefore⟩
    cases built
    simp_all [buildField]

/-- Fields are built one by one if they have names of their own, none of them the type key. -/
theorem buildFields_eq_ok {shape : String} {before : List String} {fields : List FieldDescription}
    {built : List Field} : description.buildFields shape before fields = .ok built ↔
      List.Forall₂ description.BuiltField fields built ∧ (fields.map (·.name)).Nodup ∧
        ∀ field ∈ fields, field.name ≠ description.typeKey ∧ field.name ∉ before := by
  induction fields generalizing before built with
  | nil => simp [buildFields, eq_comm]
  | cons field fields ih =>
      rw [buildFields, List.map_cons, List.nodup_cons, List.forall_mem_cons]
      simp only [bind_eq_ok, Except.ok.injEq, buildField_eq_ok, ih, List.mem_cons, not_or,
        List.forall₂_cons_left_iff, List.mem_map, not_exists, not_and]
      constructor
      · rintro ⟨head, ⟨hhead, hkey, hbefore⟩, tail, ⟨htail, hnodup, hnames⟩, rfl⟩
        exact ⟨⟨head, tail, hhead, htail, rfl⟩,
          ⟨fun other hother => (hnames other hother).2.1, hnodup⟩, ⟨hkey, hbefore⟩,
          fun other hother => ⟨(hnames other hother).1, (hnames other hother).2.2⟩⟩
      · rintro ⟨⟨head, tail, hhead, htail, rfl⟩, ⟨hother, hnodup⟩, ⟨hkey, hbefore⟩, hnames⟩
        exact ⟨head, ⟨hhead, hkey, hbefore⟩, tail, ⟨htail, hnodup, fun other hmem =>
          ⟨(hnames other hmem).1, hother other hmem, (hnames other hmem).2⟩⟩, rfl⟩

/-- The names of fields stay. -/
theorem map_name_of_buildFields {shape : String} {before : List String}
    {fields : List FieldDescription} {built : List Field}
    (h : description.buildFields shape before fields = .ok built) :
    built.map (·.name) = fields.map (·.name) :=
  map_eq_of_forall₂ (buildFields_eq_ok.mp h).1.flip fun _ _ hbuilt => hbuilt.name

theorem lookup_lt {name : String} {id : ShapeId} (h : description.lookup name = some id) :
    id.index < description.shapes.length := by
  obtain ⟨index, hindex, rfl⟩ := Option.map_eq_some_iff.mp h
  exact (List.findIdx?_eq_some_iff_getElem.mp hindex).1

theorem buildShape_eq_ok {d : ShapeDescription} {shape : Shape} :
    description.buildShape d = .ok shape ↔
      shape.name = d.name ∧ description.buildFields d.name [] d.fields = .ok shape.fields := by
  simp only [buildShape, bind_eq_ok, Except.ok.injEq]
  constructor
  · rintro ⟨fields, hfields, rfl⟩
    exact ⟨rfl, hfields⟩
  · rintro ⟨hname, hfields⟩
    exact ⟨shape.fields, hfields, hname ▸ rfl⟩

/-- The shapes of a registry are built from those of its description, one by one, if their names
pass. -/
theorem build_eq_ok {registry : Registry} : description.build = .ok registry ↔
    checkNames [] (description.shapes.map (·.name)) = .ok () ∧
      registry.typeKey = description.typeKey ∧
      List.Forall₂ (fun d shape => shape.name = d.name ∧
        description.buildFields d.name [] d.fields = .ok shape.fields)
        description.shapes registry.shapes := by
  simp only [build, bind_eq_ok, mapM_eq_ok, buildShape_eq_ok, Except.ok.injEq]
  constructor
  · rintro ⟨_, hnames, shapes, hshapes, rfl⟩
    exact ⟨hnames, rfl, hshapes⟩
  · rintro ⟨hnames, hkey, hshapes⟩
    exact ⟨(), hnames, registry.shapes, hshapes, hkey ▸ rfl⟩

/-- Every registry that is built is valid. -/
theorem valid_of_build {registry : Registry} (h : description.build = .ok registry) :
    registry.Valid := by
  obtain ⟨hnames, -, hall⟩ := build_eq_ok.mp h
  have hnamesEq : registry.shapes.map (·.name) = description.shapes.map (·.name) :=
    map_eq_of_forall₂ hall.flip fun _ _ hbuilt => hbuilt.1
  obtain ⟨hnodup, hbuiltin⟩ := checkNames_eq_ok.mp hnames
  refine ⟨hnamesEq ▸ hnodup, fun shape hshape => ?_, fun shape hshape => ?_,
    fun shape hshape field hfield id hid => ?_⟩
  · exact (hbuiltin shape.name (hnamesEq ▸ List.mem_map_of_mem hshape)).2
  · obtain ⟨d, -, -, hd⟩ := exists_left_of_forall₂ hall hshape
    rw [Shape.fieldNames, map_name_of_buildFields hd]
    exact (buildFields_eq_ok.mp hd).2.1
  · obtain ⟨d, -, -, hd⟩ := exists_left_of_forall₂ hall hshape
    obtain ⟨_, -, hbuilt⟩ := exists_left_of_forall₂ (buildFields_eq_ok.mp hd).1 hfield
    obtain ⟨name, hname⟩ := hbuilt.resolved id hid
    exact hall.length_eq ▸ lookup_lt hname

/-- Pairs of a number and of another pair or null. -/
def pairs : RegistryDescription where
  shapes := [⟨"Pair", [⟨"left", "integer"⟩, ⟨"next", "Pair?"⟩]⟩]

/-- The registry of pairs, with another shape before them and another type key. -/
def leavesAndPairs : RegistryDescription where
  typeKey := "kind"
  shapes := [⟨"Leaf", [⟨"value", "string?"⟩]⟩, ⟨"Pair", [⟨"left", "integer"⟩, ⟨"next", "Pair?"⟩]⟩]

end RegistryDescription

namespace Registry

/-- The registry of pairs. -/
def pairs : Registry where
  typeKey := "type"
  shapes := [⟨"Pair", [⟨"left", "integer", .integer⟩, ⟨"next", "Pair?", .nullable (.shape ⟨0⟩)⟩]⟩]

theorem build_pairs : RegistryDescription.pairs.build = .ok pairs := by rfl

/-- The registry of leaves and pairs. -/
def leavesAndPairs : Registry where
  typeKey := "kind"
  shapes := [⟨"Leaf", [⟨"value", "string?", .nullable .string⟩]⟩,
    ⟨"Pair", [⟨"left", "integer", .integer⟩, ⟨"next", "Pair?", .nullable (.shape ⟨1⟩)⟩]⟩]

theorem build_leavesAndPairs : RegistryDescription.leavesAndPairs.build = .ok leavesAndPairs := by rfl

variable {registry : Registry}

/-! ### Shapes by name and by position -/

/-- The shape of a name is registered under that name. -/
theorem lookup_eq_some {name : String} {id : ShapeId} (h : registry.lookup name = some id) :
    id.index < registry.shapes.length ∧ registry.shapeName id = name := by
  obtain ⟨index, hindex, rfl⟩ := Option.map_eq_some_iff.mp h
  obtain ⟨hlt, hname, -⟩ := List.findIdx?_eq_some_iff_getElem.mp hindex
  refine ⟨hlt, ?_⟩
  simpa [shapeName, get?, List.getElem?_eq_getElem hlt] using hname

theorem isSome_lookup_iff {name : String} : (registry.lookup name).isSome = true ↔
    ∃ shape ∈ registry.shapes, shape.name = name := by
  simp [lookup]

theorem require_of_lookup_eq_none {name : String} (h : registry.lookup name = none) :
    registry.require name = .error (.unknownShape name) := by
  rw [require, h]

theorem require_eq_ok {name : String} {id : ShapeId} :
    registry.require name = .ok id ↔ registry.lookup name = some id := by
  simp only [require]
  split <;> simp_all

theorem get?_eq_some {id : ShapeId} (h : id.index < registry.shapes.length) :
    registry.get? id = some registry.shapes[id.index] :=
  List.getElem?_eq_getElem h

theorem shapeName_eq {id : ShapeId} (h : id.index < registry.shapes.length) :
    registry.shapeName id = registry.shapes[id.index].name := by
  simp only [shapeName, get?_eq_some h, Option.elim_some]

/-- Registered shapes differ in their names. -/
theorem Valid.shapeName_inj (hr : registry.Valid) {a b : ShapeId}
    (ha : a.index < registry.shapes.length) (hb : b.index < registry.shapes.length)
    (h : registry.shapeName a = registry.shapeName b) : a = b := by
  rw [shapeName_eq ha, shapeName_eq hb] at h
  have hindex : a.index = b.index :=
    (List.getElem?_inj (by simpa using ha) hr.names_nodup).mp (by simp [ha, hb, h])
  cases a
  cases b
  simpa using hindex

/-- A registered shape is found under its name. -/
theorem Valid.lookup_shapeName (hr : registry.Valid) {id : ShapeId}
    (h : id.index < registry.shapes.length) : registry.lookup (registry.shapeName id) = some id := by
  cases hfound : registry.lookup (registry.shapeName id) with
  | some found =>
      obtain ⟨hlt, hname⟩ := lookup_eq_some hfound
      rw [hr.shapeName_inj hlt h hname]
  | none =>
      simp only [lookup, Option.map_eq_none_iff, List.findIdx?_eq_none_iff] at hfound
      have := hfound _ (List.getElem_mem h)
      simp [shapeName_eq h] at this

theorem mem_fields {id : ShapeId} {field : Field} (h : field ∈ registry.fields id) :
    ∃ shape ∈ registry.shapes, registry.get? id = some shape ∧ field ∈ shape.fields := by
  simp only [fields, get?] at h ⊢
  cases hshape : registry.shapes[id.index]? with
  | none => simp [hshape] at h
  | some shape =>
      simp only [hshape, Option.elim_some] at h
      exact ⟨shape, List.mem_of_getElem? hshape, rfl, h⟩

theorem Valid.fields_nodup_names (hr : registry.Valid) (id : ShapeId) :
    ((registry.fields id).map (·.name)).Nodup := by
  simp only [fields]
  cases hshape : registry.get? id with
  | none => simp
  | some shape => exact hr.fields_nodup shape (List.mem_of_getElem? hshape)

/-- No field is declared under the type key. -/
theorem typeKey_notMem {description : RegistryDescription} (h : description.build = .ok registry)
    (id : ShapeId) : registry.typeKey ∉ (registry.fields id).map (·.name) := by
  intro hmem
  obtain ⟨field, hfield, heq⟩ := List.mem_map.mp hmem
  obtain ⟨-, hkey, hall⟩ := RegistryDescription.build_eq_ok.mp h
  obtain ⟨shape, hshape, -, hfield⟩ := mem_fields hfield
  obtain ⟨d, -, -, hd⟩ := exists_left_of_forall₂ hall hshape
  obtain ⟨hbuilt, -, hnames⟩ := RegistryDescription.buildFields_eq_ok.mp hd
  obtain ⟨described, hdescribed, hfield⟩ := exists_left_of_forall₂ hbuilt hfield
  exact (hnames described hdescribed).1 (hfield.name ▸ heq.trans hkey)

/-- A declared field names registered shapes only. -/
theorem Valid.declared_lt (hr : registry.Valid) {id : ShapeId} {field : Field}
    (h : field ∈ registry.fields id) {named : ShapeId} (hnamed : named ∈ field.type.shapeIds) :
    named.index < registry.shapes.length := by
  obtain ⟨shape, hshape, -, hfield⟩ := mem_fields h
  exact hr.declared shape hshape field hfield named hnamed

end Registry

end SyntaxPack
