import Mathlib.Data.List.Forall2
import SyntaxPack.Module.Walk
import SyntaxPack.Proofs.Monad
import SyntaxPack.Proofs.Tree.Acyclic
/-!
# SyntaxPack.Proofs.Tree.Conforms

Trees that conform to a registry.

In a conforming tree every reference leads to a node of its kind, no node reaches
itself, and every object has a registered shape and exactly the fields that the
shape declares, each with a value that its declared type accepts.
-/

namespace SyntaxPack

namespace Object

variable {name shape : String} {value : Value} {fields : List (String × Value)}

/-- A field that is not set yet goes behind those that are. -/
theorem setField_of_notMem (h : name ∉ fields.map (·.1)) :
    setField name value fields = fields ++ [(name, value)] := by
  induction fields with
  | nil => rfl
  | cons entry fields ih =>
      obtain ⟨key, old⟩ := entry
      simp only [List.map_cons, List.mem_cons, not_or] at h
      rw [setField, if_neg (fun heq => h.1 heq.symm), ih h.2, List.cons_append]

theorem ofFields_eq_foldl (shape : String) (fields : List (String × Value)) :
    ofFields shape fields =
      fields.foldl (fun object entry => object.set entry.1 entry.2) ⟨shape, []⟩ := rfl

/-- Fields with distinct names stay in the order in which they are set. -/
theorem fields_ofFields (h : (fields.map (·.1)).Nodup) : ofFields shape fields = ⟨shape, fields⟩ := by
  suffices ∀ (rest : List (String × Value)) (object : Object),
      ((object.fields ++ rest).map (·.1)).Nodup →
        rest.foldl (fun object entry => object.set entry.1 entry.2) object =
          ⟨object.shape, object.fields ++ rest⟩ by
    rw [ofFields_eq_foldl]
    simpa using this fields ⟨shape, []⟩ (by simpa using h)
  intro rest
  induction rest with
  | nil => intro object _; simp
  | cons entry rest ih =>
      obtain ⟨key, new⟩ := entry
      intro object hnodup
      have hkey : key ∉ object.fields.map (·.1) := by
        rw [List.map_append, List.map_cons, List.nodup_append] at hnodup
        intro hmem
        exact hnodup.2.2 key hmem key List.mem_cons_self rfl
      have hset : object.set key new = ⟨object.shape, object.fields ++ [(key, new)]⟩ := by
        rw [Object.set, setField_of_notMem hkey]
      simp only [List.foldl_cons, hset]
      rw [ih _ (by simpa using hnodup)]
      simp

end Object

namespace Tree

/-- A reference leads to a node of its kind. -/
def Resolves (tree : Tree) : Value → Prop
  | .array id => (tree.array? id).isSome = true
  | .object id => (tree.object? id).isSome = true
  | _ => True

/-- A value is the root or an element or a field of some node. -/
def Occurs (tree : Tree) (value : Value) : Prop :=
  value = tree.root ∨ ∃ id node, tree.node? id = some node ∧ value ∈ node.children

/-- The declared fields of a shape and the fields of an object agree one by one: in
the name, and in that the declared type accepts the runtime tag of the value. -/
def FieldsConform (tree : Tree) (registry : Registry) (shape : ShapeId)
    (fields : List (String × Value)) : Prop :=
  List.Forall₂ (fun field entry => entry.1 = field.name ∧
    ∃ tag, Tag.of tree registry entry.2 = .ok tag ∧ field.type.accepts tag = true)
    (registry.fields shape) fields

/-- A tree without dangling references, cycles and objects that are not as their
shapes declare them. -/
structure Conforms (tree : Tree) (registry : Registry) : Prop where
  resolves : ∀ value, tree.Occurs value → tree.Resolves value
  acyclic : ∀ id, ¬ tree.Reaches id id
  objects : ∀ id object, tree.object? id = some object →
    ∃ shape, registry.lookup object.shape = some shape ∧ (object.fields.map (·.1)).Nodup ∧
      tree.FieldsConform registry shape object.fields

/-- The fields of an object in a conforming tree are those that its shape declares, in order. -/
theorem Conforms.names_eq {tree : Tree} {registry : Registry} {id : NodeId} {object : Object}
    {shape : ShapeId} (h : tree.Conforms registry) (hobject : tree.object? id = some object)
    (hshape : registry.lookup object.shape = some shape) :
    object.fields.map (·.1) = (registry.fields shape).map (·.name) := by
  obtain ⟨own, hown, -, hfields⟩ := h.objects id object hobject
  obtain rfl := Option.some.inj (hown.symm.trans hshape)
  exact map_eq_of_forall₂ hfields.flip fun _ _ hentry => hentry.1

end Tree

end SyntaxPack
