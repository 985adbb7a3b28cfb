import SyntaxPack.Module.Dedupe
import SyntaxPack.Proofs.Encode.Walk
import SyntaxPack.Proofs.Exchange.Tables
/-!
# SyntaxPack.Proofs.Exchange.Walked

The module of a tree under another registry.

If two registries declare the shapes of all objects that the root leads to alike, the
walk makes the same steps under both: it comes to the same nodes, related tags pass the
same checks, and the tables are filled with the same content. Deduplication sorts the
nodes into the same classes.

All statements are of one form, `Ensues`: whenever the one program returns something, the other
returns something related. Errors are not compared, for they may name what only the one registry
has. Positions of shapes may differ, so tags, fields, tables and keys are related by what
corresponds; nodes, strings and numbers of hits are the same.

Since a successful walk only looks at objects that the root leads to, nothing is asked of shapes
that do not occur in the tree. This is why every statement about a value has the hypothesis that it
leads to such nodes only (`Tree.Leads`).
-/

namespace SyntaxPack

namespace Tree

/-- Two registries declare the shapes of all objects that the root leads to alike. Shapes that are
not in use may be declared by one of them only, or differently. -/
structure Shared (tree : Tree) (registry registry' : Registry) : Prop where
  valid : registry.Valid
  valid' : registry'.Valid
  agree : ∀ id object, tree.Reachable id → tree.object? id = some object →
    registry.Agree registry' object.shape

/-- A value leads to a node that the root leads to, if it leads to any. -/
def Leads (tree : Tree) (value : Value) : Prop :=
  ∀ id, value.node? = some id → tree.Reachable id

variable {tree : Tree} {registry registry' : Registry} {id : NodeId}

theorem leads_root (tree : Tree) : tree.Leads tree.root := fun id hid => ⟨id, hid, .refl⟩

theorem Reachable.leads_element (h : tree.Reachable id) {elements : List Value}
    (helements : tree.array? id = some elements) : ∀ value ∈ elements, tree.Leads value := by
  intro value hvalue child hchild
  have hmem := List.mem_filterMap.mpr ⟨value, hvalue, hchild⟩
  exact h.of_refers ⟨_, array?_eq_some_iff.mp helements, hmem⟩

theorem Reachable.leads_get (h : tree.Reachable id) {object : Object}
    (hobject : tree.object? id = some object) (name : String) : tree.Leads (object.get name) := by
  intro child hchild
  refine h.of_refers ⟨_, object?_eq_some_iff.mp hobject, List.mem_filterMap.mpr ⟨_, ?_, hchild⟩⟩
  exact get_mem_children fun hnull => by simp [hnull, Value.node?] at hchild

namespace Shared

variable (h : tree.Shared registry registry')
include h

theorem biUnique : Relator.BiUnique (registry.Corresponds registry') :=
  Registry.biUnique_corresponds h.valid h.valid'

/-- The shape of an object that the root leads to is found in both registries. -/
theorem shapeOf (hid : tree.Reachable id) {object : Object} (hobject : tree.object? id = some object) :
    Ensues (fun shape shape' => registry.Corresponds registry' shape shape' ∧
        SameFields (registry.Corresponds registry') (registry.fields shape) (registry'.fields shape'))
      (registry.shapeOf object.shape) (registry'.shapeOf object.shape) := by
  intro shape hshape
  obtain ⟨shape', hlookup', hrel, hfields⟩ := (h.agree id object hid hobject).corresponds h.valid
    h.valid' (Registry.shapeOf_eq_ok.mp hshape)
  exact ⟨shape', Registry.shapeOf_eq_ok.mpr hlookup', hrel, hfields⟩

theorem treeShapeOf (hid : tree.Reachable id) :
    Ensues (fun shape shape' => registry.Corresponds registry' shape shape' ∧
        SameFields (registry.Corresponds registry') (registry.fields shape) (registry'.fields shape'))
      (tree.shapeOf registry id) (tree.shapeOf registry' id) := by
  intro shape hshape
  obtain ⟨object, hobject, hlookup⟩ := bind_eq_ok.mp hshape
  obtain ⟨shape', hlookup', hsame⟩ :=
    h.shapeOf hid (requireObject_eq_ok.mp hobject) shape hlookup
  exact ⟨shape', bind_eq_ok.mpr ⟨object, hobject, hlookup'⟩, hsame⟩

/-- A value has related runtime tags. -/
theorem tagOf {value : Value} (hvalue : tree.Leads value) :
    Ensues (Tag.Same (registry.Corresponds registry')) (Tag.of tree registry value)
      (Tag.of tree registry' value) := by
  cases value with
  | null | string s | array id => exact .ok (.builtin _)
  | boolean b => cases b <;> exact .ok (.builtin _)
  | number d =>
      refine .ok ?_
      rw [Tag.ofNumber, ← apply_ite Tag.builtin]
      exact .builtin _
  | object id =>
      exact (h.treeShapeOf (hvalue id rfl)).bind fun _ _ hshape => .ok (.shape hshape.1)

end Shared

end Tree

namespace Module

/-- The same encoder at work under another registry. -/
abbrev WalkInput.under (input : WalkInput) (registry : Registry) : WalkInput :=
  { input with registry := registry }

/-- States of walks that have filled the same module. -/
structure WalkState.Same (rel : ShapeId → ShapeId → Prop) (s s' : WalkState) : Prop where
  module : s.module.Same rel s'.module
  finished : s.finished = s'.finished

namespace WalkInput

variable {input : WalkInput} {registry' : Registry} {s s' : WalkState}
  {visit visit' : Value → WalkState → Except Error WalkState}

/-- Walks that do the same to every value that the root leads to. -/
def VisitsAlike (tree : Tree) (rel : ShapeId → ShapeId → Prop)
    (visit visit' : Value → WalkState → Except Error WalkState) : Prop :=
  ∀ value, tree.Leads value → ∀ s s', s.Same rel s' →
    Ensues (WalkState.Same rel) (visit value s) (visit' value s')

variable (h : input.tree.Shared input.registry registry')
include h

/-! ### Checks

A check passes under the other registry if it passes under the one. What it is asked of is related,
and errors need not be. -/

/-- Related tags pass the same checks, because acceptance does not depend on positions of shapes. -/
theorem ensues_checkTag {site site' : Site} {source source' : String} {declared declared' : TypeDecl}
    (hdeclared : declared.Same (input.registry.Corresponds registry') declared') {tag tag' : Tag}
    (htag : tag.Same (input.registry.Corresponds registry') tag') :
    Ensues (fun _ _ => True) (input.checkTag site declared source tag)
      ((input.under registry').checkTag site' declared' source' tag') := by
  simp only [checkTag, hdeclared.accepts_eq h.biUnique htag]
  split
  · exact .ok trivial
  · exact .error

/-- The elements of a field that declares their type pass the same checks, one after another. -/
theorem ensues_checkItems {shape shape' : String} {field field' : Field} {element element' : TypeDecl}
    (helement : element.Same (input.registry.Corresponds registry') element') {values : List Value}
    (hvalues : ∀ value ∈ values, input.tree.Leads value) (index : Nat) :
    Ensues (fun _ _ => True) (input.checkItems shape field element index values)
      ((input.under registry').checkItems shape' field' element' index values) := by
  induction values generalizing index with
  | nil => exact .ok trivial
  | cons value values ih =>
      obtain ⟨hvalue, hvalues⟩ := List.forall_mem_cons.mp hvalues
      exact (h.tagOf hvalue).bind fun _ _ htag => (ensues_checkTag h helement htag).bind
        fun _ _ _ => ih hvalues (index + 1)

/-- A value passes the same checks in corresponding fields. -/
theorem ensues_checkField {shape shape' : String} {field field' : Field}
    (htype : field.type.Same (input.registry.Corresponds registry') field'.type) {value : Value}
    (hvalue : input.tree.Leads value) :
    Ensues (fun _ _ => True) (input.checkField shape field value)
      ((input.under registry').checkField shape' field' value) := by
  refine (h.tagOf hvalue).bind fun _ _ htag => (ensues_checkTag h htype htag).bind fun _ _ _ => ?_
  have helement := htype.element
  generalize field.type.element = element at helement ⊢
  generalize field'.type.element = element' at helement ⊢
  cases value with
  | null | boolean _ | number _ | string _ | object _ => exact .ok trivial
  | array id =>
      cases helement with
      | none => exact .ok trivial
      | some helement =>
          refine .bind_same fun elements helements => ensues_checkItems h helement ?_ 0
          exact (hvalue id rfl).leads_element (Tree.requireArray_eq_ok.mp helements)

omit h in
theorem ensues_checkDeclared {shape shape' : Shape} (hnames : shape.fieldNames = shape'.fieldNames)
    (object : Object) :
    Ensues (fun _ _ => True) (input.checkDeclared shape object)
      ((input.under registry').checkDeclared shape' object) := by
  have hdeclares : ∀ name, shape.declares name = shape'.declares name := by
    intro name
    have hany := congrArg (List.any · (· = name)) hnames
    simpa [Shape.declares, Shape.fieldNames, List.any_map, Function.comp_def] using hany
  simp only [checkDeclared, hdeclares]
  split
  · exact .ok trivial
  · split
    · exact .error
    · exact .ok trivial

/-- Related tags of elements have related common tags, or none on both sides. -/
theorem ensues_elementTag (id : NodeId) {tags tags' : List Tag}
    (htags : List.Forall₂ (Tag.Same (input.registry.Corresponds registry')) tags tags') :
    Ensues (Tag.Same (input.registry.Corresponds registry')) (input.elementTag id tags)
      ((input.under registry').elementTag id tags') := by
  have hunify := Tag.unify_same h.biUnique htags
  simp only [elementTag]
  generalize Tag.unify tags = tag at hunify ⊢
  generalize Tag.unify tags' = tag' at hunify ⊢
  cases hunify with
  | some htag => exact .ok htag
  | none =>
      simp only
      split
      · exact .ok (.builtin .any)
      · exact .error

/-! ### The walk

The lemmas follow the recursion of the walk. Its depth is the number of nodes, which is the same for
both, so there is no induction other than that on the depth. -/

/-- Elements are visited alike, and give related tags. -/
theorem VisitsAlike.visitElements
    (hvisit : VisitsAlike input.tree (input.registry.Corresponds registry') visit visit')
    {values : List Value} (hvalues : ∀ value ∈ values, input.tree.Leads value)
    (hs : s.Same (input.registry.Corresponds registry') s') :
    Ensues (fun r r' => List.Forall₂ (Tag.Same (input.registry.Corresponds registry')) r.1 r'.1 ∧
        r.2.Same (input.registry.Corresponds registry') r'.2)
      (input.visitElements visit values s) ((input.under registry').visitElements visit' values s') := by
  induction values generalizing s s' with
  | nil => exact .ok ⟨.nil, hs⟩
  | cons value values ih =>
      obtain ⟨hvalue, hvalues⟩ := List.forall_mem_cons.mp hvalues
      refine (hvisit value hvalue s s' hs).bind fun t t' ht => (h.tagOf hvalue).bind
        fun tag tag' htag => (ih hvalues ht).bind fun r r' hr => ?_
      exact .ok ⟨.cons htag hr.1, hr.2⟩

/-- Fields are visited alike, in the order of the shape, which is the same under both registries. -/
theorem VisitsAlike.visitFields
    (hvisit : VisitsAlike input.tree (input.registry.Corresponds registry') visit visit')
    {shape shape' : String} {object : Object} (hobject : ∀ name, input.tree.Leads (object.get name))
    {fields fields' : List Field}
    (hfields : SameFields (input.registry.Corresponds registry') fields fields')
    (hs : s.Same (input.registry.Corresponds registry') s') :
    Ensues (WalkState.Same (input.registry.Corresponds registry'))
      (input.visitFields visit shape object fields s)
      ((input.under registry').visitFields visit' shape' object fields' s') := by
  induction hfields generalizing s s' with
  | nil => exact .ok hs
  | @cons field field' _ _ hfield _ ih =>
      simp only [WalkInput.visitFields, hfield.1]
      exact (ensues_checkField h hfield.2 (hobject field'.name)).bind fun _ _ _ =>
        (hvisit _ (hobject field'.name) s s' hs).bind fun _ _ ht => ih ht

/-- Values are visited alike, if what is below them is. -/
theorem VisitsAlike.visitValue
    (hvisit : VisitsAlike input.tree (input.registry.Corresponds registry') visit visit') :
    VisitsAlike input.tree (input.registry.Corresponds registry') (input.visitValue visit)
      ((input.under registry').visitValue visit') := by
  intro value hvalue s s' hs
  cases value with
  | null | boolean _ | number _ => exact .ok hs
  | string text =>
      exact (hs.module.internString text).mapError.bind fun _ _ hm => .ok ⟨hm, hs.finished⟩
  | array id =>
      refine .bind_same fun elements helements => ?_
      have hleads := (hvalue id rfl).leads_element (Tree.requireArray_eq_ok.mp helements)
      refine (hs.module.registerArray id).mapError.bind fun found found' hfound => ?_
      obtain ⟨isNew, m⟩ := found
      obtain ⟨isNew', m'⟩ := found'
      obtain ⟨rfl, hm⟩ := hfound
      have ht : WalkState.Same (input.registry.Corresponds registry') { s with module := m }
          { s' with module := m' } := ⟨hm, hs.finished⟩
      -- An array that was met before is not walked again, and was met before on both sides.
      cases isNew with
      | false => exact .ok ht
      | true =>
          refine (hvisit.visitElements h hleads ht).bind fun r r' hr => ?_
          refine (ensues_elementTag h id hr.1).bind fun tag tag' htag => ?_
          exact .ok ⟨hr.2.module.setElementTag id htag, congrArg (id :: ·) hr.2.finished⟩
  | object id =>
      refine .bind_same fun object hobject => ?_
      replace hobject := Tree.requireObject_eq_ok.mp hobject
      refine (h.shapeOf (hvalue id rfl) hobject).bind fun shape shape' hshape => ?_
      obtain ⟨hshape, hfields⟩ := hshape
      refine (hs.module.registerObject h.biUnique hshape (fun _ _ hid => hid.2.2)
        id).mapError.bind fun found found' hfound => ?_
      obtain ⟨isNew, m⟩ := found
      obtain ⟨isNew', m'⟩ := found'
      obtain ⟨rfl, hm⟩ := hfound
      have ht : WalkState.Same (input.registry.Corresponds registry') { s with module := m }
          { s' with module := m' } := ⟨hm, hs.finished⟩
      cases isNew with
      | false => exact .ok ht
      | true =>
          -- Which fields are declared is a matter of names, on which both registries agree.
          have hnames : Shape.fieldNames ⟨input.registry.shapeName shape, input.registry.fields shape⟩ =
              Shape.fieldNames ⟨registry'.shapeName shape', registry'.fields shape'⟩ :=
            map_eq_of_forall₂ hfields fun _ _ hfield => hfield.1
          refine (ensues_checkDeclared hnames object).bind fun _ _ _ => ?_
          refine (hvisit.visitFields h ((hvalue id rfl).leads_get hobject) hfields ht).bind
            fun u u' hu => ?_
          exact .ok ⟨hu.module, congrArg (id :: ·) hu.finished⟩

theorem visitsAlike_visit (depth : Nat) :
    VisitsAlike input.tree (input.registry.Corresponds registry') (input.visit depth)
      ((input.under registry').visit depth) := by
  induction depth with
  | zero => exact fun _ _ _ _ hs => .ok hs
  | succ depth ih => exact ih.visitValue h

/-- The walk fills the same module and leaves the nodes in the same order. -/
theorem ensues_walk :
    Ensues (fun r r' => r.1.Same (input.registry.Corresponds registry') r'.1 ∧ r.2 = r'.2)
      input.walk (input.under registry').walk := by
  refine (visitsAlike_visit h _ _ input.tree.leads_root _ _ ⟨.empty input.config, rfl⟩).bind
    fun t t' ht => ?_
  exact .ok ⟨{ ht.module with root := rfl }, congrArg List.reverse ht.finished⟩

end WalkInput

/-! ### Deduplication

Classes are compared as lists of members with related keys. Corresponding is one to one, so two keys
are equal on the one side just if they are on the other, and a node goes to the class at the same
place. -/

variable {rel : ShapeId → ShapeId → Prop}

/-- Keys that differ in positions of shapes only. What they say of values is the same, since it is
made of numbers of classes. -/
inductive ClassKey.Same (rel : ShapeId → ShapeId → Prop) : ClassKey → ClassKey → Prop
  | object {shape shape' : ShapeId} (h : rel shape shape') (fields : List Atom) :
      Same rel (.object shape fields) (.object shape' fields)
  | array {tag tag' : Tag} (h : tag.Same rel tag') (elements : List Atom) :
      Same rel (.array tag elements) (.array tag' elements)

/-- Keys are told apart on both sides alike. -/
theorem ClassKey.Same.eq_iff (hrel : Relator.BiUnique rel) {a a' b b' : ClassKey} (ha : a.Same rel a')
    (hb : b.Same rel b') : a = b ↔ a' = b' := by
  cases ha with
  | object hshape fields =>
      cases hb with
      | object hshape' fields' => simp [Relator.rel_eq hrel hshape hshape']
      | array htag elements => simp
  | array htag elements =>
      cases hb with
      | object hshape fields => simp
      | array htag' elements' => simp [htag.eq_iff hrel htag']

theorem ClassKey.Same.shape? {key key' : ClassKey} (h : key.Same rel key') :
    Option.Rel rel key.shape? key'.shape? := by
  cases h with
  | object hshape _ => exact .some hshape
  | array _ _ => exact .none

theorem Same.usesOf_eq {m m' : Module} (h : m.Same rel m') (hrel : Relator.BiUnique rel)
    {shape shape' : Option ShapeId} (hshape : Option.Rel rel shape shape') :
    m.usesOf shape = m'.usesOf shape' := by
  funext node
  cases hshape with
  | none => simp only [usesOf, h.arrays]
  | some hshape => simp only [usesOf, h.objects.table?_eq hrel hshape]

/-- Classes of the same members. -/
structure NodeClass.Same (rel : ShapeId → ShapeId → Prop) (c c' : NodeClass) : Prop where
  key : c.key.Same rel c'.key
  members : c.members = c'.members

namespace NodeClasses

variable {classes classes' : NodeClasses} (h : List.Forall₂ (NodeClass.Same rel) classes classes')
include h

theorem classOf?_eq (node : NodeId) : classes.classOf? node = classes'.classOf? node :=
  findIdx?_eq_of_forall₂ h fun c c' hc => by rw [hc.members]

theorem atom_eq (value : Value) : classes.atom value = classes'.atom value := by
  have hclass : classes.requireClass = classes'.requireClass := by
    funext node
    rw [requireClass, requireClass, classOf?_eq h]
  cases value <;> simp only [atom, hclass]

/-- A node is put into the class at the same place, or makes a new one on both sides. -/
theorem insert_same (hrel : Relator.BiUnique rel) {key key' : ClassKey} (hkey : key.Same rel key')
    (node : NodeId) :
    List.Forall₂ (NodeClass.Same rel) (insert key node classes) (insert key' node classes') := by
  induction h with
  | nil => exact .cons ⟨hkey, rfl⟩ .nil
  | @cons c c' _ _ hc hrest ih =>
      simp only [insert, hc.key.eq_iff hrel hkey]
      split
      · exact .cons ⟨hc.key, congrArg (node :: ·) hc.members⟩ hrest
      · exact .cons hc ih

end NodeClasses

section

variable {tree : Tree} {registry registry' : Registry} {m m' : Module} {classes classes' : NodeClasses}
  (h : tree.Shared registry registry')
include h

theorem ensues_classKey (hm : m.Same (registry.Corresponds registry') m')
    (hclasses : List.Forall₂ (NodeClass.Same (registry.Corresponds registry')) classes classes')
    {id : NodeId} (hid : tree.Reachable id) :
    Ensues (ClassKey.Same (registry.Corresponds registry')) (m.classKey tree registry classes id)
      (m'.classKey tree registry' classes' id) := by
  have hatom : classes.atom = classes'.atom := funext (NodeClasses.atom_eq hclasses)
  simp only [classKey, hatom]
  -- A key is made of the node, which is the same, and of its shape or its tag of elements.
  cases hnode : tree.node? id with
  | none => exact .error
  | some node =>
      cases node with
      | array elements =>
          have htag := hm.elementTag? id
          simp only
          generalize m.elementTag? id = tag at htag ⊢
          generalize m'.elementTag? id = tag' at htag ⊢
          cases htag with
          | none => exact .error
          | some htag =>
              refine (Ensues.refl _).bind fun atoms atoms' hatoms => ?_
              exact .ok (hatoms ▸ .array htag atoms)
      | object object =>
          refine (h.shapeOf hid (Tree.object?_eq_some_iff.mpr hnode)).bind fun shape shape' hshape => ?_
          obtain ⟨hshape, hfields⟩ := hshape
          have hvalues : (registry.fields shape).map (fun field => object.get field.name) =
              (registry'.fields shape').map fun field => object.get field.name :=
            map_eq_of_forall₂ hfields fun _ _ hfield => congrArg object.get hfield.1
          simp only [hvalues]
          refine (Ensues.refl _).bind fun atoms atoms' hatoms => ?_
          exact .ok (hatoms ▸ .object hshape atoms)

/-- All nodes are classified alike. Only nodes that the root leads to have to be. -/
theorem ensues_classify (hm : m.Same (registry.Corresponds registry') m') {postOrder : List NodeId}
    (hreachable : ∀ id ∈ postOrder, tree.Reachable id) :
    Ensues (List.Forall₂ (NodeClass.Same (registry.Corresponds registry')))
      (m.classify tree registry postOrder) (m'.classify tree registry' postOrder) := by
  have hlist : List.Forall₂ (fun id id' => id = id' ∧ tree.Reachable id) postOrder postOrder :=
    List.forall₂_same.mpr fun id hid => ⟨rfl, hreachable id hid⟩
  refine Ensues.foldlM hlist ?_ .nil
  rintro id _ ⟨rfl, hid⟩ classes classes' hclasses
  refine (ensues_classKey h hm hclasses hid).bind fun key key' hkey => ?_
  exact .ok (NodeClasses.insert_same hclasses h.biUnique hkey id)

/-- As many nodes were merged away, and the modules are the same. -/
abbrev SameMerged (R : ShapeId → ShapeId → Prop) (state state' : Nat × Module) : Prop :=
  state.1 = state'.1 ∧ state.2.Same R state'.2

theorem ensues_mergeNode (hm : m.Same (registry.Corresponds registry') m') {shape shape' : Option ShapeId}
    (hshape : Option.Rel (registry.Corresponds registry') shape shape') (source target : NodeId) :
    Ensues (Module.Same (registry.Corresponds registry')) (mergeNode registry shape m source target)
      (mergeNode registry' shape' m' source target) := by
  cases hshape with
  | none => exact hm.dedupeArray _ _
  | some hshape => exact hm.dedupeObject h.biUnique hshape (fun _ _ hid => hid.2.2) _ _

/-- A class is merged under both registries or under neither, for its members have the same numbers
of uses. -/
theorem ensues_mergeClass {state state' : Nat × Module}
    (hm : SameMerged (registry.Corresponds registry') state state') {c c' : NodeClass}
    (hc : c.Same (registry.Corresponds registry') c') (minUses : Nat) :
    Ensues (SameMerged (registry.Corresponds registry')) (mergeClass registry minUses state c)
      (mergeClass registry' minUses state' c') := by
  have hshape := hc.key.shape?
  simp only [mergeClass, hc.members, hm.2.usesOf_eq h.biUnique hshape]
  split
  · split
    · exact .ok hm
    · refine Ensues.foldlM (List.forall₂_same.mpr fun source _ => rfl) ?_ hm
      rintro source _ rfl state state' hstate
      exact (ensues_mergeNode h hstate.2 hshape _ _).bind fun _ _ hk =>
        .ok ⟨congrArg (· + 1) hstate.1, hk⟩
  · exact .ok hm

/-- Deduplication merges the same nodes. -/
theorem ensues_dedupe (hm : m.Same (registry.Corresponds registry') m') {postOrder : List NodeId}
    (hreachable : ∀ id ∈ postOrder, tree.Reachable id) (minUses : Nat) :
    Ensues (SameMerged (registry.Corresponds registry')) (m.dedupe tree registry postOrder minUses)
      (m'.dedupe tree registry' postOrder minUses) := by
  refine (ensues_classify h hm hreachable).bind fun classes classes' hclasses => ?_
  refine (Ensues.foldlM hclasses (fun c c' hc state state' hstate => ?_) ⟨rfl, hm⟩).mapError
  exact ensues_mergeClass h hstate hc minUses

/-- The modules of a tree are the same under both registries, whatever the configuration. -/
theorem ensues_build (config : EncodingConfig) :
    Ensues (Module.Same (registry.Corresponds registry')) (Module.build tree registry config)
      (Module.build tree registry' config) := by
  have hwalk : Ensues (fun r r' => r.1.Same (registry.Corresponds registry') r'.1 ∧ r.2 = r'.2 ∧
        ∀ id ∈ r.2, tree.Reachable id)
      (WalkInput.walk ⟨tree, registry, config⟩) (WalkInput.walk ⟨tree, registry', config⟩) := by
    intro r hr
    let input : WalkInput := ⟨tree, registry, config⟩
    have hinput : input.tree.Shared input.registry registry' := h
    obtain ⟨r', hr', hsame, hpost⟩ := WalkInput.ensues_walk hinput r hr
    exact ⟨r', hr', hsame, hpost, fun id hid =>
      ((WalkInput.walked_of_walk h.valid hr).inUse id hid).reachable⟩
  refine hwalk.bind fun r r' hr => ?_
  obtain ⟨walked, postOrder⟩ := r
  obtain ⟨walked', postOrder'⟩ := r'
  obtain ⟨hsame, rfl, hreachable⟩ := hr
  cases hdedupe : config.dedupe with
  | true =>
      exact (ensues_dedupe h hsame hreachable _).bind fun _ _ hmerged =>
        .ok (hmerged.2.finalize _ _)
  | false => exact .ok (hsame.finalize _ _)

end

end Module

end SyntaxPack
