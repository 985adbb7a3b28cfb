import SyntaxPack.Module.Walk
import SyntaxPack.Proofs.Encode.Nodes
/-!
# SyntaxPack.Proofs.Encode.Checks

What the checks of the walk ask for.

A check either passes or names the place that it objects to. Here each check is paired with
the property of the tree that it decides, so that nothing else has to look into the checks.
-/

namespace SyntaxPack

namespace Module.WalkInput

variable {input : WalkInput} {value : Value}

/-- A value leads to a node of its kind, if it leads to any: an array to an array, and an
object to an object of a registered shape. -/
def Leads (input : WalkInput) : Value → Prop
  | .array id => (input.tree.array? id).isSome = true
  | .object id => (input.tree.shape? input.registry id).isSome = true
  | _ => True

/-- A value has a runtime tag, and a declared type accepts it. -/
def Accepts (input : WalkInput) (declared : TypeDecl) (value : Value) : Prop :=
  ∃ tag, input.tagOf value = .ok tag ∧ declared.accepts tag = true

/-- Whatever leads to a node of its kind has a runtime tag. -/
theorem Leads.tag_ok (h : input.Leads value) : ∃ tag, input.tagOf value = .ok tag := by
  match value, h with
  | .null, _ | .boolean true, _ | .boolean false, _ | .number _, _ | .string _, _ | .array _, _ =>
      exact ⟨_, rfl⟩
  | .object id, h =>
      obtain ⟨shape, hshape⟩ := Option.isSome_iff_exists.mp h
      exact ⟨_, Tag.of_object_eq_ok.mpr ⟨shape, hshape, rfl⟩⟩

theorem checkTag_eq_ok {site : Site} {declared : TypeDecl} {source : String} {tag : Tag} :
    input.checkTag site declared source tag = .ok () ↔ declared.accepts tag = true := by
  unfold checkTag
  split <;> simp_all

theorem checkItems_eq_ok {shape : String} {field : Field} {element : TypeDecl} {items : List Value}
    {index : Nat} : input.checkItems shape field element index items = .ok () ↔
      ∀ item ∈ items, input.Accepts element item := by
  induction items generalizing index with
  | nil => simp [checkItems]
  | cons item items ih =>
      unfold checkItems
      simp only [bind_eq_ok, List.forall_mem_cons, Accepts]
      constructor
      · rintro ⟨tag, htag, _, hcheck, hrest⟩
        exact ⟨⟨tag, htag, checkTag_eq_ok.mp hcheck⟩, ih.mp hrest⟩
      · rintro ⟨⟨tag, htag, haccepts⟩, hrest⟩
        exact ⟨tag, htag, (), checkTag_eq_ok.mpr haccepts, ih.mpr hrest⟩

/-- The check of a field looks at its value, and at the elements if it holds an array and its
declaration has a type for them. -/
theorem checkField_eq_ok {shape : String} {field : Field} :
    input.checkField shape field value = .ok () ↔ input.Accepts field.type value ∧
      ∀ element, field.type.element = some element → ∀ array, value = .array array →
        ∃ items, input.tree.array? array = some items ∧ ∀ item ∈ items, input.Accepts element item := by
  unfold checkField
  simp only [bind_eq_ok]
  constructor
  · rintro ⟨tag, htag, _, hcheck, hrest⟩
    refine ⟨⟨tag, htag, checkTag_eq_ok.mp hcheck⟩, ?_⟩
    intro element helement array hvalue
    subst hvalue
    rw [helement] at hrest
    obtain ⟨items, hitems, hall⟩ := bind_eq_ok.mp hrest
    exact ⟨items, Tree.requireArray_eq_ok.mp hitems, checkItems_eq_ok.mp hall⟩
  · rintro ⟨⟨tag, htag, haccepts⟩, helements⟩
    refine ⟨tag, htag, (), checkTag_eq_ok.mpr haccepts, ?_⟩
    split
    · rename_i array element helement
      obtain ⟨items, hitems, hall⟩ := helements element helement array rfl
      exact bind_eq_ok.mpr ⟨items, Tree.requireArray_eq_ok.mpr hitems, checkItems_eq_ok.mpr hall⟩
    · rfl

/-- No configuration has a say in the types of fields. -/
theorem checkField_config (tree : Tree) (registry : Registry) (config config' : EncodingConfig) :
    (⟨tree, registry, config⟩ : WalkInput).checkField =
      (⟨tree, registry, config'⟩ : WalkInput).checkField := by
  have hitems : ∀ shape field element index items,
      (⟨tree, registry, config⟩ : WalkInput).checkItems shape field element index items =
        (⟨tree, registry, config'⟩ : WalkInput).checkItems shape field element index items := by
    intro shape field element index items
    induction items generalizing index with
    | nil => rfl
    | cons item items ih =>
        simp only [checkItems, ih]
        rfl
  funext shape field value
  simp only [checkField, hitems]
  rfl

/-- Undeclared fields are objected to unless they are dropped. -/
theorem checkDeclared_eq_ok {shape : Shape} {object : Object} :
    input.checkDeclared shape object = .ok () ↔ (input.config.ignoreUnknownFields = false →
      ∀ entry ∈ object.fields, shape.declares entry.1 = true) := by
  unfold checkDeclared
  cases input.config.ignoreUnknownFields with
  | true => simp
  | false =>
      simp only [Bool.false_eq_true, if_false, forall_const]
      split
      · rename_i name value hfind
        have hundeclared : shape.declares name = false := by simpa using List.find?_some hfind
        have hmem := List.mem_of_find?_eq_some hfind
        simp only [reduceCtorEq, false_iff]
        intro hall
        rw [hall _ hmem] at hundeclared
        cases hundeclared
      · rename_i hnone
        simpa using hnone

/-- An array has an element tag if the tags of its elements have one, or if any do. -/
theorem exists_elementTag_iff {id : NodeId} {tags : List Tag} :
    (∃ tag, input.elementTag id tags = .ok tag) ↔
      (input.config.anyArrayFallback = false → (Tag.unify tags).isSome = true) := by
  unfold elementTag
  cases Tag.unify tags with
  | some tag => simp
  | none => cases input.config.anyArrayFallback <;> simp

end Module.WalkInput

end SyntaxPack
