import Mathlib.Logic.Relator
import SyntaxPack.Proofs.Codec
/-!
# SyntaxPack.Proofs.Exchange.Shapes

Two registries that declare a shape alike.

The position of a shape differs from registry to registry, its name does not.
`Registry.Agree` compares what two registries declare for a name: the names of the
fields, and the declared types up to the positions of the shapes in them. `Same`
says of types, tags and layouts that they differ in positions only, in those that a
relation `rel` connects. As long as `rel` is one to one, nothing that is decided
about a tag or a type depends on the positions.
-/

namespace SyntaxPack

variable {rel rel' : ShapeId → ShapeId → Prop}

/-! ### Types, tags and layouts up to positions

Lists of members are a relation of their own, mutual with the one on types, as the functions on
declared types recurse through the members of a union in the same way. -/

mutual

/-- Declared types that name shapes which are related, and are equal otherwise. -/
inductive TypeDecl.Same (rel : ShapeId → ShapeId → Prop) : TypeDecl → TypeDecl → Prop
  | any : Same rel .any .any
  | null : Same rel .null .null
  | boolean : Same rel .boolean .boolean
  | integer : Same rel .integer .integer
  | double : Same rel .double .double
  | number : Same rel .number .number
  | string : Same rel .string .string
  | object : Same rel .object .object
  | array : Same rel .array .array
  | arrayOf {element element' : TypeDecl} (h : Same rel element element') :
      Same rel (.arrayOf element) (.arrayOf element')
  | shape {id id' : ShapeId} (h : rel id id') : Same rel (.shape id) (.shape id')
  | nullable {inner inner' : TypeDecl} (h : Same rel inner inner') :
      Same rel (.nullable inner) (.nullable inner')
  | union {members members' : List TypeDecl} (h : SameMembers rel members members') :
      Same rel (.union members) (.union members')

/-- Lists of declared types that are the same one by one. -/
inductive TypeDecl.SameMembers (rel : ShapeId → ShapeId → Prop) :
    List TypeDecl → List TypeDecl → Prop
  | nil : SameMembers rel [] []
  | cons {member member' : TypeDecl} {members members' : List TypeDecl}
      (h : Same rel member member') (hs : SameMembers rel members members') :
      SameMembers rel (member :: members) (member' :: members')

end

/-- Tags that are equal, or those of related shapes. -/
inductive Tag.Same (rel : ShapeId → ShapeId → Prop) : Tag → Tag → Prop
  | builtin (b : Builtin) : Same rel (.builtin b) (.builtin b)
  | shape {id id' : ShapeId} (h : rel id id') : Same rel (.shape id) (.shape id')

/-- Layouts that are the same up to positions. -/
inductive Codec.Same (rel : ShapeId → ShapeId → Prop) : Codec → Codec → Prop
  | tagged {decl decl' : TypeDecl} (h : decl.Same rel decl') : Same rel (.tagged decl) (.tagged decl')
  | fixed {tag tag' : Tag} (h : tag.Same rel tag') (nullable : Bool) :
      Same rel (.fixed tag nullable) (.fixed tag' nullable)

/-- Fields of the same names in the same order, with the same declared types. -/
def SameFields (rel : ShapeId → ShapeId → Prop) : List Field → List Field → Prop :=
  List.Forall₂ fun field field' => field.name = field'.name ∧ field.type.Same rel field'.type

namespace Tag

/-- Tags are told apart on both sides alike. -/
theorem Same.eq_iff (hrel : Relator.BiUnique rel) {t t' u u' : Tag} (ht : t.Same rel t')
    (hu : u.Same rel u') : t = u ↔ t' = u' := by
  cases ht with
  | builtin b =>
      cases hu with
      | builtin c => rfl
      | shape h => simp
  | shape h =>
      cases hu with
      | builtin c => simp
      | shape h' => simpa using Relator.rel_eq hrel h h'

theorem Same.eq_builtin_iff {t t' : Tag} {b : Builtin} (h : t.Same rel t') :
    t = .builtin b ↔ t' = .builtin b := by
  cases h <;> simp

theorem Same.isTerminal_eq {t t' : Tag} (h : t.Same rel t') : t.isTerminal = t'.isTerminal := by
  cases h <;> rfl

theorem Same.isReference_eq {t t' : Tag} (h : t.Same rel t') : t.isReference = t'.isReference := by
  cases h <;> rfl

theorem Same.isShape_eq {t t' : Tag} (h : t.Same rel t') : t.isShape = t'.isShape := by
  cases h <;> rfl

/-- The stream of a tag, if related shapes have the same tag indices. -/
theorem Same.streamIndex_eq {t t' : Tag} {f f' : ShapeId → Option Nat} (h : t.Same rel t')
    (hf : ∀ id id', rel id id' → f id = f' id') : t.streamIndex f = t'.streamIndex f' := by
  cases h with
  | builtin b => rfl
  | shape h => simp only [streamIndex, hf _ _ h]

end Tag

namespace TypeDecl

mutual

/-- A declared type accepts a tag if and only if the other one does. -/
theorem Same.accepts_eq (hrel : Relator.BiUnique rel) {tag tag' : Tag} (ht : tag.Same rel tag') :
    ∀ {decl decl' : TypeDecl}, decl.Same rel decl' → decl.accepts tag = decl'.accepts tag'
  | _, _, .any => rfl
  | _, _, .null | _, _, .boolean | _, _, .integer | _, _, .double | _, _, .number
  | _, _, .string | _, _, .array | _, _, .arrayOf _ => by simp only [accepts, ht.eq_builtin_iff]
  | _, _, .object => ht.isShape_eq
  | _, _, .shape h => by simp only [accepts, ht.eq_iff hrel (.shape h)]
  | _, _, .nullable h => by simp only [accepts, ht.eq_builtin_iff, h.accepts_eq hrel ht]
  | _, _, .union h => h.someAccepts_eq hrel ht

theorem SameMembers.someAccepts_eq (hrel : Relator.BiUnique rel) {tag tag' : Tag}
    (ht : tag.Same rel tag') : ∀ {members members' : List TypeDecl},
    SameMembers rel members members' → someAccepts members tag = someAccepts members' tag'
  | _, _, .nil => rfl
  | _, _, .cons h hs => by
      simp only [someAccepts, h.accepts_eq hrel ht, hs.someAccepts_eq hrel ht]

end

mutual

/-- The element types are the same, or there is none on either side. -/
theorem Same.element : ∀ {decl decl' : TypeDecl}, decl.Same rel decl' →
    Option.Rel (Same rel) decl.element decl'.element
  | _, _, .any | _, _, .null | _, _, .boolean | _, _, .integer | _, _, .double | _, _, .number
  | _, _, .string | _, _, .object | _, _, .array | _, _, .shape _ => .none
  | _, _, .arrayOf h => .some h
  | _, _, .nullable h => h.element
  | _, _, .union h => h.firstElement

theorem SameMembers.firstElement : ∀ {members members' : List TypeDecl},
    SameMembers rel members members' →
    Option.Rel (Same rel) (firstElement members) (firstElement members')
  | _, _, .nil => .none
  | _, _, .cons h hs => by
      have hhead := h.element
      have htail := hs.firstElement
      simp only [TypeDecl.firstElement]
      generalize TypeDecl.element _ = head at hhead ⊢
      generalize TypeDecl.element _ = head' at hhead ⊢
      cases hhead with
      | some h => exact .some h
      | none => exact htail

end

mutual

/-- Types stay the same if the shapes that they name stay related. -/
theorem Same.imp_of_mem : ∀ {decl decl' : TypeDecl}, decl.Same rel decl' →
    (∀ id ∈ decl.shapeIds, ∀ id' ∈ decl'.shapeIds, rel id id' → rel' id id') →
    decl.Same rel' decl'
  | _, _, .any, _ => .any
  | _, _, .null, _ => .null
  | _, _, .boolean, _ => .boolean
  | _, _, .integer, _ => .integer
  | _, _, .double, _ => .double
  | _, _, .number, _ => .number
  | _, _, .string, _ => .string
  | _, _, .object, _ => .object
  | _, _, .array, _ => .array
  | _, _, .arrayOf h, himp => .arrayOf (h.imp_of_mem himp)
  | _, _, .shape h, himp => .shape (himp _ List.mem_cons_self _ List.mem_cons_self h)
  | _, _, .nullable h, himp => .nullable (h.imp_of_mem himp)
  | _, _, .union h, himp => .union (h.imp_of_mem himp)

theorem SameMembers.imp_of_mem : ∀ {members members' : List TypeDecl},
    SameMembers rel members members' →
    (∀ id ∈ memberShapeIds members, ∀ id' ∈ memberShapeIds members', rel id id' → rel' id id') →
    SameMembers rel' members members'
  | _, _, .nil, _ => .nil
  | _, _, .cons h hs, himp =>
      .cons
        (h.imp_of_mem fun id hid id' hid' =>
          himp id (List.mem_append_left _ hid) id' (List.mem_append_left _ hid'))
        (hs.imp_of_mem fun id hid id' hid' =>
          himp id (List.mem_append_right _ hid) id' (List.mem_append_right _ hid'))

end

mutual

theorem Same.refl (hrel : ∀ id, rel id id) : ∀ decl : TypeDecl, decl.Same rel decl
  | .any => .any
  | .null => .null
  | .boolean => .boolean
  | .integer => .integer
  | .double => .double
  | .number => .number
  | .string => .string
  | .object => .object
  | .array => .array
  | .arrayOf element => .arrayOf (Same.refl hrel element)
  | .shape id => .shape (hrel id)
  | .nullable inner => .nullable (Same.refl hrel inner)
  | .union members => .union (SameMembers.refl hrel members)

theorem SameMembers.refl (hrel : ∀ id, rel id id) :
    ∀ members : List TypeDecl, SameMembers rel members members
  | [] => .nil
  | member :: members => .cons (Same.refl hrel member) (SameMembers.refl hrel members)

end

end TypeDecl

namespace Codec

theorem Same.ofDecl {decl decl' : TypeDecl} (h : decl.Same rel decl') (partitioned : Bool) :
    (ofDecl decl partitioned).Same rel (ofDecl decl' partitioned) := by
  have hfixed : ∀ (b : Builtin) (nullable : Bool),
      Same rel (.fixed (.builtin b) nullable) (.fixed (.builtin b) nullable) :=
    fun b nullable => .fixed (.builtin b) nullable
  cases h with
  | null | integer | double | string | array | arrayOf => exact hfixed _ _
  | any => exact .tagged .any
  | boolean => exact .tagged .boolean
  | number => exact .tagged .number
  | union h => exact .tagged (.union h)
  | shape h => exact .fixed (.shape h) false
  | object =>
      cases partitioned with
      | true => exact .tagged .object
      | false => exact hfixed _ _
  | nullable h =>
      cases h with
      | null | string | array | arrayOf => exact hfixed _ _
      | shape h => exact .fixed (.shape h) true
      | any => exact .tagged (.nullable .any)
      | boolean => exact .tagged (.nullable .boolean)
      | integer => exact .tagged (.nullable .integer)
      | double => exact .tagged (.nullable .double)
      | number => exact .tagged (.nullable .number)
      | union h => exact .tagged (.nullable (.union h))
      | nullable h => exact .tagged (.nullable (.nullable h))
      | object =>
          cases partitioned with
          | true => exact .tagged (.nullable .object)
          | false => exact hfixed _ _

theorem Same.ofElement {tag tag' : Tag} (h : tag.Same rel tag') (partitioned : Bool) :
    (ofElement tag partitioned).Same rel (ofElement tag' partitioned) := by
  cases h with
  | shape h => exact .ofDecl (.nullable (.shape h)) partitioned
  | builtin b =>
      cases b with
      | trueValue | falseValue => exact .fixed (.builtin _) false
      | any => exact .ofDecl .any partitioned
      | null => exact .ofDecl .null partitioned
      | boolean => exact .ofDecl .boolean partitioned
      | number => exact .ofDecl .number partitioned
      | integer => exact .ofDecl .integer partitioned
      | double => exact .ofDecl .double partitioned
      | string => exact .ofDecl (.nullable .string) partitioned
      | array => exact .ofDecl (.nullable .array) partitioned
      | object => exact .ofDecl (.nullable .object) partitioned

end Codec

/-! ### The common tag of elements -/

theorem all_eq_of_forall₂ {α β : Type} {r : α → β → Prop} {p : α → Bool} {q : β → Bool}
    {xs : List α} {ys : List β} (h : List.Forall₂ r xs ys) (hpq : ∀ x y, r x y → p x = q y) :
    xs.all p = ys.all q := by
  induction h with
  | nil => rfl
  | cons hxy _ ih => rw [List.all_cons, List.all_cons, hpq _ _ hxy, ih]

theorem forall₂_filter {α β : Type} {r : α → β → Prop} {p : α → Bool} {q : β → Bool}
    {xs : List α} {ys : List β} (h : List.Forall₂ r xs ys) (hpq : ∀ x y, r x y → p x = q y) :
    List.Forall₂ r (xs.filter p) (ys.filter q) :=
  List.rel_filter (fun x y hxy => iff_of_eq (congrArg (· = true) (hpq x y hxy))) h

namespace Tag

theorem forall₂_eraseDups (hrel : Relator.BiUnique rel) {tags tags' : List Tag}
    (h : List.Forall₂ (Same rel) tags tags') :
    List.Forall₂ (Same rel) tags.eraseDups tags'.eraseDups := by
  cases htags : tags with
  | nil =>
      rw [htags, List.forall₂_nil_left_iff] at h
      rw [h]
      exact .nil
  | cons t rest =>
      rw [htags, List.forall₂_cons_left_iff] at h
      obtain ⟨t', rest', ht, hrest, rfl⟩ := h
      rw [List.eraseDups_cons, List.eraseDups_cons]
      have hfilter : List.Forall₂ (Same rel) (rest.filter fun u => !u == t)
          (rest'.filter fun u => !u == t') := by
        refine forall₂_filter hrest fun u u' hu => ?_
        rw [Bool.eq_iff_iff]
        simpa using not_congr (hu.eq_iff hrel ht)
      exact .cons ht (forall₂_eraseDups hrel hfilter)
termination_by tags.length
decreasing_by
  have hlt := List.length_filter_le (fun u => !u == t) rest
  rw [htags, List.length_cons]
  omega

/-- The common tag of elements is the same on both sides. It is found by looking at which tags
occur, and whether all of them are shapes, booleans or numbers, which positions have no part in. -/
theorem unify_same (hrel : Relator.BiUnique rel) {tags tags' : List Tag}
    (h : List.Forall₂ (Same rel) tags tags') : Option.Rel (Same rel) (unify tags) (unify tags') := by
  have hnull : tags.contains (.builtin .null) = tags'.contains (.builtin .null) := by
    rw [Bool.eq_iff_iff]
    simp only [List.contains_iff_mem]
    constructor
    · intro hmem
      obtain ⟨t', ht', hsame⟩ := exists_right_of_forall₂ h hmem
      exact hsame.eq_builtin_iff.mp rfl ▸ ht'
    · intro hmem
      obtain ⟨t, ht, hsame⟩ := exists_left_of_forall₂ h hmem
      exact hsame.eq_builtin_iff.mpr rfl ▸ ht
  have hdistinct := forall₂_eraseDups hrel (forall₂_filter (p := (· ≠ .builtin .null))
    (q := (· ≠ .builtin .null)) h fun t t' ht => by simp only [ne_eq, ht.eq_builtin_iff])
  have hbuiltin : ∀ b, Option.Rel (Same rel) (some (.builtin b)) (some (.builtin b)) :=
    fun b => .some (.builtin b)
  simp only [unify, hnull]
  -- None, one or several tags are left besides null, on both sides the same number of them.
  generalize (tags.filter _).eraseDups = distinct at hdistinct ⊢
  generalize (tags'.filter _).eraseDups = distinct' at hdistinct ⊢
  cases hdistinct with
  | nil =>
      rw [← apply_ite Tag.builtin]
      exact hbuiltin _
  | cons ht hrest =>
      cases hrest with
      | nil =>
          simp only [ht.isReference_eq]
          split
          · exact .none
          · exact .some ht
      | cons hu hmore =>
          have hall := List.Forall₂.cons ht (.cons hu hmore)
          simp only [all_eq_of_forall₂ hall fun t t' h => h.isShape_eq,
            all_eq_of_forall₂ hall fun t t' h => show (decide (t = .builtin .trueValue) ||
              decide (t = .builtin .falseValue)) = (decide (t' = .builtin .trueValue) ||
              decide (t' = .builtin .falseValue)) by simp only [h.eq_builtin_iff],
            all_eq_of_forall₂ hall fun t t' h => show (decide (t = .builtin .integer) ||
              decide (t = .builtin .double)) = (decide (t' = .builtin .integer) ||
              decide (t' = .builtin .double)) by simp only [h.eq_builtin_iff]]
          split
          · exact hbuiltin _
          · split
            · exact .none
            · split
              · exact hbuiltin _
              · split
                · exact hbuiltin _
                · exact .none

end Tag

/-! ### Two registries

Agreement is about one name at a time. It compares the declarations by the names of the shapes in
them and does not look at those shapes in turn, as a reader of a field has no use for more. -/

namespace Registry

variable {registry registry' : Registry}

/-- Two registries declare a shape alike: the same field names in the same order, and
the same declared types up to the positions of the shapes that they name. -/
def Agree (registry registry' : Registry) (name : String) : Prop :=
  ∃ id id', registry.lookup name = some id ∧ registry'.lookup name = some id' ∧
    SameFields (fun shape shape' => registry.shapeName shape = registry'.shapeName shape')
      (registry.fields id) (registry'.fields id')

/-- Two positions are those of one name. -/
def Corresponds (registry registry' : Registry) (id id' : ShapeId) : Prop :=
  id.index < registry.shapes.length ∧ id'.index < registry'.shapes.length ∧
    registry.shapeName id = registry'.shapeName id'

/-- Names tell shapes apart in both registries. -/
theorem biUnique_corresponds (hr : registry.Valid) (hr' : registry'.Valid) :
    Relator.BiUnique (registry.Corresponds registry') := by
  constructor
  · intro a b c ha hb
    exact hr.shapeName_inj ha.1 hb.1 (ha.2.2.trans hb.2.2.symm)
  · intro a b c hb hc
    exact hr'.shapeName_inj hb.2.1 hc.2.1 (hb.2.2.symm.trans hc.2.2)

/-- What two registries agree on is found at corresponding positions in both. -/
theorem Agree.corresponds (hr : registry.Valid) (hr' : registry'.Valid) {name : String}
    (h : registry.Agree registry' name) {id : ShapeId} (hid : registry.lookup name = some id) :
    ∃ id', registry'.lookup name = some id' ∧ registry.Corresponds registry' id id' ∧
      SameFields (registry.Corresponds registry') (registry.fields id) (registry'.fields id') := by
  obtain ⟨found, id', hfound, hid', hfields⟩ := h
  obtain rfl : found = id := Option.some.inj (hfound.symm.trans hid)
  obtain ⟨hlt, hname⟩ := lookup_eq_some hfound
  obtain ⟨hlt', hname'⟩ := lookup_eq_some hid'
  refine ⟨id', hid', ⟨hlt, hlt', hname.trans hname'.symm⟩, forall₂_imp_of_mem hfields ?_⟩
  intro field hfield field' hfield' hsame
  exact ⟨hsame.1, hsame.2.imp_of_mem fun shape hshape shape' hshape' hnames =>
    ⟨hr.declared_lt hfield hshape, hr'.declared_lt hfield' hshape', hnames⟩⟩

/-- A registry agrees with itself on every shape that it declares. -/
theorem agree_self {name : String} {id : ShapeId} (h : registry.lookup name = some id) :
    registry.Agree registry name :=
  ⟨id, id, h, h, List.forall₂_same.mpr fun _ _ => ⟨rfl, TypeDecl.Same.refl (fun _ => by rfl) _⟩⟩

end Registry

end SyntaxPack
