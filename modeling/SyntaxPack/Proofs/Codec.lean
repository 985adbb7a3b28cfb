import SyntaxPack.Module.Walk
import SyntaxPack.Proofs.Double
import SyntaxPack.Proofs.Registry
/-!
# SyntaxPack.Proofs.Codec

Which values a slot of a layout can hold.

`Tag.holds tag t` says that values of runtime tag `t` are stored under `tag`. The
layout that `Codec.ofDecl` chooses for a declaration loses nothing and admits
nothing else: `accepts_ofDecl` gives the runtime tags of its values as exactly those
that the declaration accepts.
-/

namespace SyntaxPack

/-- Whether values of a runtime tag are stored under a tag. -/
def Tag.holds : Tag → Tag → Bool
  | .builtin .object, t => t.isShape
  | .builtin .double, t => t = .builtin .integer || t = .builtin .double
  | tag, t => t = tag

namespace TypeDecl

mutual

/-- Integers are doubles too. -/
theorem accepts_integer_of_double : ∀ {decl : TypeDecl},
    decl.accepts (.builtin .double) = true → decl.accepts (.builtin .integer) = true
  | .any, _ => rfl
  | .double, _ => by simp [accepts]
  | .number, _ => by simp [accepts]
  | .nullable inner, h => by
      have hinner : inner.accepts (.builtin .double) = true := by simpa [accepts] using h
      simp [accepts, accepts_integer_of_double hinner]
  | .union members, h => by
      rw [accepts] at h ⊢
      exact someAccepts_integer_of_double h
  | .null, h | .boolean, h | .integer, h | .string, h | .object, h | .array, h
  | .arrayOf _, h | .shape _, h => by simp [accepts, Tag.isShape] at h ⊢

theorem someAccepts_integer_of_double : ∀ {members : List TypeDecl},
    someAccepts members (.builtin .double) = true → someAccepts members (.builtin .integer) = true
  | [], h => by simp [someAccepts] at h
  | member :: members, h => by
      rw [someAccepts, Bool.or_eq_true] at h ⊢
      exact h.imp accepts_integer_of_double someAccepts_integer_of_double

end

/-- A declaration that accepts a tag accepts all values that are stored under it. -/
theorem accepts_of_holds {decl : TypeDecl} {tag t : Tag} (hterminal : tag.isTerminal = true)
    (haccepts : decl.accepts tag = true) (h : tag.holds t = true) : decl.accepts t = true := by
  rcases tag with (_ | _) | shape
  case builtin.double =>
    simp only [Tag.holds, Bool.or_eq_true, decide_eq_true_eq] at h
    rcases h with rfl | rfl
    · exact accepts_integer_of_double haccepts
    · exact haccepts
  case builtin.object => simp [Tag.isTerminal] at hterminal
  all_goals
    simp only [Tag.holds, decide_eq_true_eq] at h
    exact h ▸ haccepts

end TypeDecl

namespace Codec

/-- Whether values of a runtime tag can stand in a slot. -/
def accepts : Codec → Tag → Bool
  | tagged decl, t => decl.accepts t
  | fixed tag nullable, t => tag.holds t || nullable && t = .builtin .null

/-- The shapes that a layout names. -/
def shapeIds : Codec → List ShapeId
  | tagged decl => decl.shapeIds
  | fixed (.shape id) _ => [id]
  | fixed _ _ => []

/-- The slot of a field can hold exactly the values that its declaration accepts. -/
theorem accepts_ofDecl (decl : TypeDecl) (partitioned : Bool) (t : Tag) :
    (ofDecl decl partitioned).accepts t = decl.accepts t := by
  cases decl with
  | any | boolean | number | union => rfl
  | null | integer | double | string | array | arrayOf | shape =>
      simp [ofDecl, TypeDecl.splitNullable, accepts, TypeDecl.accepts, Tag.holds]
  | object =>
      cases partitioned with
      | true => rfl
      | false => simp [ofDecl, TypeDecl.splitNullable, accepts, TypeDecl.accepts, Tag.holds]
  | nullable inner =>
      cases inner with
      | any | boolean | number | union | integer | double | nullable => rfl
      | null | string | array | arrayOf | shape =>
          simp [ofDecl, TypeDecl.splitNullable, accepts, TypeDecl.accepts, Tag.holds, Bool.or_comm]
      | object =>
          cases partitioned with
          | true => rfl
          | false =>
              simp [ofDecl, TypeDecl.splitNullable, accepts, TypeDecl.accepts, Tag.holds,
                Bool.or_comm]

/-- A layout names no shapes but those of its declaration. -/
theorem shapeIds_ofDecl {decl : TypeDecl} {partitioned : Bool} {id : ShapeId}
    (h : id ∈ (ofDecl decl partitioned).shapeIds) : id ∈ decl.shapeIds := by
  cases decl with
  | any | boolean | number | union => exact h
  | null | integer | double | string | array | arrayOf => exact absurd h List.not_mem_nil
  | shape => exact h
  | object => cases partitioned <;> exact absurd h List.not_mem_nil
  | nullable inner =>
      cases inner with
      | any | boolean | number | union | integer | double | nullable => exact h
      | null | string | array | arrayOf => exact absurd h List.not_mem_nil
      | shape => exact h
      | object => cases partitioned <;> exact absurd h List.not_mem_nil

/-- The shape of an element tag is all that the layout of the elements names. -/
theorem shapeIds_ofElement {tag : Tag} {partitioned : Bool} {id : ShapeId}
    (h : id ∈ (ofElement tag partitioned).shapeIds) : tag = .shape id := by
  rcases tag with (_ | _) | shape
  case shape =>
    simp only [ofElement] at h
    simpa [TypeDecl.shapeIds, eq_comm] using shapeIds_ofDecl h
  case builtin.trueValue => exact absurd h List.not_mem_nil
  case builtin.falseValue => exact absurd h List.not_mem_nil
  all_goals
    simp only [ofElement] at h
    simpa [TypeDecl.shapeIds] using shapeIds_ofDecl h

/-! ### Null -/

/-- Null has a form under every tag of a nullable slot. -/
theorem nullable_ofDecl {decl : TypeDecl} {partitioned : Bool} {tag : Tag}
    (h : ofDecl decl partitioned = fixed tag true) :
    tag.isReference = true ∨ tag = .builtin .null := by
  cases decl with
  | nullable inner =>
      cases inner with
      | string | array | arrayOf | shape =>
          cases h
          exact Or.inl rfl
      | null =>
          cases h
          exact Or.inr rfl
      | object =>
          cases partitioned <;> cases h
          exact Or.inl rfl
      | any | boolean | number | union | integer | double | nullable => cases h
  | object => cases partitioned <;> cases h
  | any | boolean | number | union | null | integer | double | string | array | arrayOf
  | shape => cases h

theorem nullable_ofElement {tag fixedTag : Tag} {partitioned : Bool}
    (h : ofElement tag partitioned = fixed fixedTag true) :
    fixedTag.isReference = true ∨ fixedTag = .builtin .null := by
  rcases tag with (_ | _) | shape
  case builtin.trueValue => cases h
  case builtin.falseValue => cases h
  all_goals
    simp only [ofElement] at h
    exact nullable_ofDecl h

/-! ### Objects of any shape -/

/-- An object slot without a tag in front of it names no table, so there is only one. -/
theorem shared_ofDecl {decl : TypeDecl} {partitioned nullable : Bool}
    (h : ofDecl decl partitioned = fixed (.builtin .object) nullable) : partitioned = false := by
  cases partitioned with
  | false => rfl
  | true =>
      cases decl with
      | nullable inner => cases inner <;> cases h
      | any | boolean | number | union | null | integer | double | string | array | arrayOf | shape
      | object => cases h

theorem shared_ofElement {tag : Tag} {partitioned nullable : Bool}
    (h : ofElement tag partitioned = fixed (.builtin .object) nullable) : partitioned = false := by
  rcases tag with (_ | _) | shape
  case builtin.trueValue => cases h
  case builtin.falseValue => cases h
  all_goals
    simp only [ofElement] at h
    exact shared_ofDecl h

/-! ### Elements -/

/-- A runtime tag is one that the elements of its own arrays can have. -/
theorem accepts_ofElement_self {tag : Tag} (partitioned : Bool) (h : tag.isTerminal = true) :
    (ofElement tag partitioned).accepts tag = true := by
  rcases tag with (_ | _) | shape
  case builtin.trueValue => rfl
  case builtin.falseValue => rfl
  all_goals simp_all [Tag.isTerminal, ofElement, accepts_ofDecl, TypeDecl.accepts]

theorem accepts_ofElement_null {tag : Tag} (partitioned : Bool) (h : tag.isReference = true) :
    (ofElement tag partitioned).accepts (.builtin .null) = true := by
  rcases tag with (_ | _) | shape
  all_goals simp_all [Tag.isReference, ofElement, accepts_ofDecl, TypeDecl.accepts]

/-- A shape is the common tag of elements only if some of them have it. -/
theorem mem_of_unify_eq_shape {tags : List Tag} {id : ShapeId}
    (h : Tag.unify tags = some (.shape id)) : .shape id ∈ tags := by
  simp only [Tag.unify] at h
  split at h
  · split at h <;> simp at h
  · rename_i only honly
    split at h
    · simp at h
    · obtain rfl := Option.some.inj h
      have hmem : Tag.shape id ∈ (tags.filter (· ≠ .builtin .null)).eraseDups := by
        rw [honly]
        exact List.mem_singleton_self _
      rw [List.mem_eraseDups] at hmem
      exact (List.mem_filter.mp hmem).1
  · simp only [apply_ite (· = some (Tag.shape id))] at h
    simp at h

/-- The slot of an element can hold every tag that the element tag was inferred from. -/
theorem accepts_ofElement {tags : List Tag} {tag t : Tag} (partitioned : Bool)
    (h : Tag.unify tags = some tag) (hterminal : ∀ t ∈ tags, t.isTerminal = true) (ht : t ∈ tags) :
    (ofElement tag partitioned).accepts t = true := by
  have hmem : t ≠ .builtin .null → t ∈ (tags.filter (· ≠ .builtin .null)).eraseDups := fun hne => by
    simpa [ht] using hne
  simp only [Tag.unify] at h
  split at h
  · rename_i hnone
    -- Only null is left, if anything is.
    have heq : t = .builtin .null := by
      by_contra hne
      exact List.not_mem_nil (hnone ▸ hmem hne)
    subst heq
    have hcontains : tags.contains (.builtin .null) = true := by simpa using ht
    rw [if_pos hcontains] at h
    obtain rfl := Option.some.inj h
    rfl
  · rename_i only honly
    split at h
    · simp at h
    · rename_i hreference
      obtain rfl := Option.some.inj h
      by_cases hne : t = .builtin .null
      · subst hne
        have hcontains : tags.contains (.builtin .null) = true := by simpa using ht
        exact accepts_ofElement_null partitioned (by simpa [ht] using hreference)
      · have hsame := hmem hne
        rw [honly, List.mem_singleton] at hsame
        exact hsame ▸ accepts_ofElement_self partitioned (hterminal t ht)
  · rename_i hall
    split at h
    · rename_i hshapes
      obtain rfl := Option.some.inj h
      rw [ofElement, accepts_ofDecl]
      by_cases hne : t = .builtin .null
      · simp [TypeDecl.accepts, hne]
      · simp [TypeDecl.accepts, List.all_eq_true.mp hshapes t (hmem hne)]
    · split at h
      · simp at h
      · rename_i hnull
        have hne : t ≠ .builtin .null := by
          rintro rfl
          simp [ht] at hnull
        split at h
        · rename_i hbooleans
          obtain rfl := Option.some.inj h
          rw [ofElement, accepts_ofDecl]
          simpa [TypeDecl.accepts] using List.all_eq_true.mp hbooleans t (hmem hne)
        · split at h
          · rename_i hnumbers
            obtain rfl := Option.some.inj h
            rw [ofElement, accepts_ofDecl]
            simpa [TypeDecl.accepts] using List.all_eq_true.mp hnumbers t (hmem hne)
          · simp at h
end Codec

end SyntaxPack
