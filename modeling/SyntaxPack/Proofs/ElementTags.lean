import SyntaxPack.Proofs.Codec
import SyntaxPack.Proofs.Firsts
/-!
# SyntaxPack.Proofs.ElementTags

The common tag of elements.

The tag that is inferred for the elements of an array decides how they are laid out, and the layout
decides which tags they may have. Inference and layout agree (`Tag.inferred`): the elements that a
tag was inferred from can stand in its slots, and where none is inferred, no slot but that of `any`
could hold all of them. This rests on a look at what the slots of elements hold, null aside: the
tags of all shapes, both booleans, both kinds of numbers, or just one tag (`Tag.Together`).
-/

namespace SyntaxPack

variable {tags tags' : List Tag} {tag t : Tag} {partitioned : Bool}

namespace Tag

/-! ### The distinct tags -/

/-- The tags that a common one is looked for, null aside. -/
theorem mem_distinct :
    t ∈ (tags.filter (· ≠ .builtin .null)).eraseDups ↔ t ∈ tags ∧ t ≠ .builtin .null := by
  simp [List.mem_eraseDups]

/-- What the elements have in common does not depend on their order and number. -/
theorem unify_congr (h : ∀ t, t ∈ tags ↔ t ∈ tags') : unify tags = unify tags' := by
  have hnull : tags.contains (.builtin .null) = tags'.contains (.builtin .null) := by
    rw [Bool.eq_iff_iff, List.contains_iff_mem, List.contains_iff_mem, h]
  have hperm : ((tags.filter (· ≠ .builtin .null)).eraseDups).Perm
      (tags'.filter (· ≠ .builtin .null)).eraseDups :=
    (List.perm_ext_iff_of_nodup (Firsts.nodup_eraseDups _) (Firsts.nodup_eraseDups _)).mpr
      fun t => by rw [mem_distinct, mem_distinct, h]
  simp only [unify, hnull]
  generalize (tags.filter _).eraseDups = distinct at hperm ⊢
  generalize (tags'.filter _).eraseDups = distinct' at hperm ⊢
  rcases distinct with _ | ⟨only, _ | ⟨next, rest⟩⟩
  · obtain rfl := List.nil_perm.mp hperm
    rfl
  · obtain rfl := List.perm_singleton.mp hperm.symm
    rfl
  · rcases distinct' with _ | ⟨only', _ | ⟨next', rest'⟩⟩
    · simp at hperm
    · simp at hperm
    · simp only [hperm.all_eq]

/-- The elements of an array that is not empty have not just `any` inferred for them. -/
theorem unify_ne_any (hterminal : ∀ t ∈ tags, t.isTerminal = true) (hsome : tags ≠ []) :
    unify tags ≠ some (.builtin .any) := by
  have hdistinct := fun {t} => (@mem_distinct tags t).mp
  intro h
  simp only [unify] at h
  split at h
  · rename_i hnone
    obtain ⟨t, ht⟩ := List.exists_mem_of_ne_nil tags hsome
    have heq : t = .builtin .null := by
      by_contra hne
      exact List.not_mem_nil (hnone ▸ mem_distinct.mpr ⟨ht, hne⟩)
    have hcontains : tags.contains (.builtin .null) = true := by simpa using heq ▸ ht
    rw [if_pos hcontains] at h
    cases h
  · rename_i only honly
    split at h
    · cases h
    · obtain rfl := Option.some.inj h
      have hmem := (hdistinct (honly ▸ List.mem_singleton_self _)).1
      simpa [isTerminal] using hterminal _ hmem
  · simp only [apply_ite (· = some (Tag.builtin .any))] at h
    simp at h

/-! ### Tags in one slot -/

/-- Tags that the slots of some elements hold together, those of `any` aside. -/
inductive Together (tags : List Tag) : Prop
  | shapes (h : ∀ t ∈ tags, t = .builtin .null ∨ t.isShape = true)
  | booleans (h : ∀ t ∈ tags, t = .builtin .trueValue ∨ t = .builtin .falseValue)
  | numbers (h : ∀ t ∈ tags, t = .builtin .integer ∨ t = .builtin .double)
  | one (only : Tag) (h : ∀ t ∈ tags, t = only ∨ t = .builtin .null ∧ only.isReference = true)

theorem isReference_of_isShape (h : t.isShape = true) : t.isReference = true := by
  cases t with
  | shape => rfl
  | builtin => simp [isShape] at h

namespace Together

variable (h : Together tags)
include h

/-- Null joins only what is stored as a reference. -/
theorem isReference (hnull : .builtin .null ∈ tags) (ht : t ∈ tags) (hne : t ≠ .builtin .null) :
    t.isReference = true := by
  cases h with
  | shapes h => exact isReference_of_isShape ((h t ht).resolve_left hne)
  | booleans h => simpa using h _ hnull
  | numbers h => simpa using h _ hnull
  | one _ h =>
      obtain rfl := (h t ht).resolve_right fun hjoins => hne hjoins.1
      exact ((h _ hnull).resolve_left fun heq => hne heq.symm).2

/-- Tags that are held together have a tag in common. -/
theorem isSome_unify : (unify tags).isSome = true := by
  have hmem := fun {t} => (@mem_distinct tags t).mp
  have hnodup := Firsts.nodup_eraseDups (tags.filter (· ≠ .builtin .null))
  simp only [unify]
  generalize (tags.filter _).eraseDups = distinct at hmem hnodup ⊢
  split
  · rfl
  · rename_i only
    obtain ⟨honly, hne⟩ := hmem (List.mem_singleton_self only)
    by_cases hnull : .builtin .null ∈ tags
    · simp [h.isReference hnull honly hne]
    · simp [hnull]
  · rename_i hnotNil hnotOne
    have hall : ∀ {p : Tag → Bool}, (∀ t ∈ tags, t ≠ .builtin .null → p t = true) →
        distinct.all p = true := fun hp =>
      List.all_eq_true.mpr fun t ht => hp t (hmem ht).1 (hmem ht).2
    cases h with
    | shapes h => rw [if_pos (hall fun t ht hne => (h t ht).resolve_left hne), Option.isSome_some]
    | booleans h =>
        split
        · rfl
        · have hnull : .builtin .null ∉ tags := fun hnull => by simpa using h _ hnull
          rw [if_neg (by simpa using hnull), if_pos (hall fun t ht _ => by simpa using h t ht),
            Option.isSome_some]
    | numbers h =>
        split
        · rfl
        · have hnull : .builtin .null ∉ tags := fun hnull => by simpa using h _ hnull
          have hnumbers := hall (p := fun t => t = .builtin .integer || t = .builtin .double)
            fun t ht _ => by simpa using h t ht
          rw [if_neg (by simpa using hnull), if_pos hnumbers]
          split <;> rfl
    | @one other h =>
        -- there are two different tags, none of them null
        have hsame : ∀ t ∈ distinct, t = other := fun t ht =>
          (h t (hmem ht).1).resolve_right fun hjoins => (hmem ht).2 hjoins.1
        rcases distinct with _ | ⟨first, _ | ⟨second, rest⟩⟩
        · exact absurd rfl hnotNil
        · exact absurd rfl (hnotOne first)
        · have hfirst := hsame first List.mem_cons_self
          have hsecond := hsame second (List.mem_cons_of_mem _ List.mem_cons_self)
          exact absurd List.mem_cons_self
            ((hfirst.trans hsecond.symm) ▸ (List.nodup_cons.mp hnodup).1)

end Together

/-- Tags that the slots of some elements hold are held together in one of these ways. -/
theorem together_of_accepts (hany : tag ≠ .builtin .any)
    (h : ∀ t ∈ tags, (Codec.ofElement tag partitioned).accepts t = true) : Together tags := by
  rcases tag with (_ | _) | shape
  case builtin.any => exact absurd rfl hany
  case builtin.trueValue =>
    exact .one (.builtin .trueValue) fun t ht => .inl (by
      simpa [Codec.ofElement, Codec.accepts, holds] using h t ht)
  case builtin.falseValue =>
    exact .one (.builtin .falseValue) fun t ht => .inl (by
      simpa [Codec.ofElement, Codec.accepts, holds] using h t ht)
  -- all other layouts hold what a declared type accepts
  all_goals simp only [Codec.ofElement, Codec.accepts_ofDecl, TypeDecl.accepts, Bool.or_eq_true,
    decide_eq_true_eq] at h
  case builtin.object => exact .shapes h
  case builtin.boolean => exact .booleans h
  case builtin.number | builtin.double => exact .numbers h
  case builtin.null | builtin.integer => exact .one _ fun t ht => .inl (h t ht)
  case builtin.string | builtin.array | shape =>
    exact .one _ fun t ht => (h t ht).symm.imp_right fun hnull => ⟨hnull, rfl⟩

/-! ### Inference -/

/-- What is inferred for the elements of an array from their tags. -/
structure Inferred (tags : List Tag) : Prop where
  /-- The order of the elements does not matter, nor how many of them have a tag. -/
  congr : ∀ tags', (∀ t, t ∈ tags ↔ t ∈ tags') → unify tags' = unify tags
  /-- The slots of the elements hold them all, whichever way tables are laid out. -/
  sound : ∀ tag partitioned, unify tags = some tag → tag ≠ .builtin .any →
    ∀ t ∈ tags, (Codec.ofElement tag partitioned).accepts t = true
  /-- Nothing is inferred if and only if the slots of no elements would, those of `any` aside. -/
  none_iff : tags ≠ [] → ∀ partitioned, unify tags = none ↔
    ∀ tag, tag ≠ .builtin .any → ∃ t ∈ tags, (Codec.ofElement tag partitioned).accepts t = false

/-- Inference is exact for the runtime tags of values. -/
theorem inferred (hterminal : ∀ t ∈ tags, t.isTerminal = true) : Inferred tags where
  congr tags' h := (unify_congr h).symm
  sound tag partitioned h _ t ht := Codec.accepts_ofElement partitioned h hterminal ht
  none_iff hsome partitioned := by
    constructor
    · intro hnone tag hany
      by_contra hall
      have htogether : Together tags := together_of_accepts hany (by simpa using hall)
      simpa [hnone] using htogether.isSome_unify
    · intro hno
      by_contra hunify
      obtain ⟨tag, htag⟩ := Option.ne_none_iff_exists'.mp hunify
      obtain ⟨t, ht, hrefused⟩ := hno tag fun hany => unify_ne_any hterminal hsome (hany ▸ htag)
      simp [Codec.accepts_ofElement partitioned htag hterminal ht] at hrefused

/-- Null and two shapes are elements of slots for objects; with a string among them, no slot but
that of `any` holds them. -/
theorem inferred_mixed :
    (∀ t ∈ [shape ⟨0⟩, .builtin .null, .shape ⟨1⟩, .builtin .string], t.isTerminal = true) ∧
      unify [shape ⟨0⟩, .builtin .null, .shape ⟨1⟩] = some (.builtin .object) ∧
      (Codec.ofElement (.builtin .object) true).accepts (.builtin .null) = true ∧
      ∀ tag, tag ≠ .builtin .any →
        ∃ t ∈ [shape ⟨0⟩, .builtin .null, .shape ⟨1⟩, .builtin .string],
          (Codec.ofElement tag true).accepts t = false := by
  have hobjects : Inferred [shape ⟨0⟩, .builtin .null, .shape ⟨1⟩] := inferred (by decide)
  have hmixed : Inferred [shape ⟨0⟩, .builtin .null, .shape ⟨1⟩, .builtin .string] :=
    inferred (by decide)
  have hunify : unify [shape ⟨0⟩, .builtin .null, .shape ⟨1⟩] = some (.builtin .object) := by decide
  exact ⟨by decide, hunify, hobjects.sound _ true hunify (by decide) _ (by decide),
    (hmixed.none_iff (by decide) true).mp (by decide)⟩

end Tag

end SyntaxPack
