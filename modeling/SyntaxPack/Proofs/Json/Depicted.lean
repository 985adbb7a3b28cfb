import SyntaxPack.Proofs.Json.Properties
import SyntaxPack.Proofs.Json.Written
import SyntaxPack.Proofs.Tree.Conforms
/-!
# SyntaxPack.Proofs.Json.Depicted

The trees of documents.

`Tree.Depicts` says what a document and a value of a tree have in common, constructor by
constructor. A tree that is built from a document depicts it: whatever is built later only adds
nodes, so what was depicted stays so. Since documents are finite, no node of a value that depicts
one reaches itself.
-/

namespace SyntaxPack

namespace Tree

variable {description : RegistryDescription} {registry : Registry} {tree tree' : Tree}
  {value : Value} {json : Json}

/-- A value depicts a document. The fields of an object are the properties apart from the one
under the type key, which names the shape; their order is not looked at. -/
inductive Depicts (tree : Tree) (registry : Registry) : Value → Json → Prop
  | null : Depicts tree registry .null .null
  | boolean (flag : Bool) : Depicts tree registry (.boolean flag) (.boolean flag)
  | integer (number : Int) :
      Depicts tree registry (.number (Double.ofInt number)) (.integer number)
  | float (number : Double) : Depicts tree registry (.number number) (.float number)
  | string (text : String) : Depicts tree registry (.string text) (.string text)
  | array {id : NodeId} {elements : List Value} {items : List Json}
      (found : tree.array? id = some elements) (length_eq : elements.length = items.length)
      (depicted : ∀ p ∈ elements.zip items, Depicts tree registry p.1 p.2) :
      Depicts tree registry (.array id) (.array items)
  | object {id : NodeId} {object : Object} {properties : Json.Properties}
      (found : tree.object? id = some object)
      (named : typeName? registry properties = some object.shape)
      (nodup : (object.fields.map (·.1)).Nodup)
      (names : ∀ name, name ∈ object.fields.map (·.1) ↔
        name ≠ registry.typeKey ∧ name ∈ properties.map (·.1))
      (depicted : ∀ name value json, (name, value) ∈ object.fields →
        properties.lookup name = some json → Depicts tree registry value json) :
      Depicts tree registry (.object id) (.object properties)

/-! ### Growing trees

Nodes are only added while a tree is built, and none is changed, so what was built before can be
compared with the document at any later time. -/

/-- The nodes of a tree are also nodes of another one. -/
def GrowsTo (tree tree' : Tree) : Prop :=
  ∀ id node, tree.node? id = some node → tree'.node? id = some node

theorem GrowsTo.trans {tree'' : Tree} (h : tree.GrowsTo tree') (h' : tree'.GrowsTo tree'') :
    tree.GrowsTo tree'' := fun id node hnode => h' id node (h id node hnode)

theorem growsTo_push (nodes : Array Node) (node : Node) (root root' : Value) :
    GrowsTo ⟨nodes, root⟩ ⟨nodes.push node, root'⟩ := by
  intro id found hfound
  have hlt := (Array.getElem?_eq_some_iff.mp hfound).1
  simpa [node?, Array.getElem?_push, Nat.ne_of_lt hlt] using hfound

theorem Depicts.mono (h : tree.Depicts registry value json) (hgrows : tree.GrowsTo tree') :
    tree'.Depicts registry value json := by
  induction h with
  | null => exact .null
  | boolean flag => exact .boolean flag
  | integer number => exact .integer number
  | float number => exact .float number
  | string text => exact .string text
  | array found length_eq _ ih =>
      exact .array (array?_eq_some_iff.mpr (hgrows _ _ (array?_eq_some_iff.mp found))) length_eq ih
  | object found named nodup names _ ih =>
      exact .object (object?_eq_some_iff.mpr (hgrows _ _ (object?_eq_some_iff.mp found))) named nodup
        names ih

/-! ### No cycles

By induction on what is depicted: the nodes below a value depict the parts of its document. -/

theorem getElem_mem_zip {α β : Type} {xs : List α} {ys : List β} (hlength : xs.length = ys.length)
    {i : Nat} (hi : i < xs.length) : (xs[i], ys[i]) ∈ xs.zip ys :=
  List.mem_iff_getElem.mpr ⟨i, by simpa [← hlength] using hi, by simp⟩

/-- Every path from what depicts a document ends, as the document does. -/
theorem Depicts.ends (h : tree.Depicts registry value json) :
    ∀ id, value.node? = some id → tree.Ends id := by
  induction h with
  | null | boolean _ | integer _ | float _ | string _ => simp [Value.node?]
  | @array id elements items found length_eq _ ih =>
      intro self hself
      obtain rfl := Option.some.inj hself
      refine ⟨id, fun other hother => ?_⟩
      obtain ⟨node, hnode, hmem⟩ := hother
      obtain rfl := Option.some.inj (hnode.symm.trans (array?_eq_some_iff.mp found))
      obtain ⟨child, hchild, hnode'⟩ := List.mem_filterMap.mp hmem
      obtain ⟨i, hi, rfl⟩ := List.mem_iff_getElem.mp (show child ∈ elements from hchild)
      exact ih _ (getElem_mem_zip length_eq hi) other hnode'
  | @object id object properties found _ _ names _ ih =>
      intro self hself
      obtain rfl := Option.some.inj hself
      refine ⟨id, fun other hother => ?_⟩
      obtain ⟨node, hnode, hmem⟩ := hother
      obtain rfl := Option.some.inj (hnode.symm.trans (object?_eq_some_iff.mp found))
      obtain ⟨child, hchild, hnode'⟩ := List.mem_filterMap.mp hmem
      obtain ⟨field, hfield, rfl⟩ := List.mem_map.mp hchild
      have hproperty := ((names field.1).mp (List.mem_map_of_mem hfield)).2
      obtain ⟨json, hjson⟩ := Option.isSome_iff_exists.mp (isSome_lookup.mpr hproperty)
      exact ih field.1 field.2 json hfield hjson other hnode'

theorem Ends.of_reflTransGen {a b : NodeId} (h : tree.Ends a)
    (hab : Relation.ReflTransGen tree.Refers a b) : tree.Ends b := by
  induction hab with
  | refl => exact h
  | tail _ hrefers ih => exact ih.inv hrefers

theorem Depicts.acyclicFrom (h : tree.Depicts registry value json) : tree.AcyclicFrom value :=
  fun id hid _ hother => ((h.ends id hid).of_reflTransGen hother).not_reaches

/-! ### Building

A builder is followed along the document. Of an object this needs that its properties are in order,
as the fields are looked up by name among them. -/

/-- What a builder makes depicts a document, and adds to the nodes that are there. -/
def Builds (registry : Registry) (build : Builder) (json : Json) : Prop :=
  ∀ path nodes value nodes', build path nodes = .ok (value, nodes') →
    GrowsTo ⟨nodes, .null⟩ ⟨nodes', .null⟩ ∧ Depicts ⟨nodes', .null⟩ registry value json

variable {path : Json.Path} {nodes nodes' : Array Node} {items : List Json}
  {properties : Json.Properties}

theorem lookup_propertyBuilders (registry : Registry) (properties : Json.Properties)
    (name : String) : (propertyBuilders registry properties).lookup name =
      (properties.lookup name).map (builder registry) := by
  rw [propertyBuilders_eq_map, lookup_map]

theorem names_propertyBuilders (registry : Registry) (properties : Json.Properties) :
    (propertyBuilders registry properties).map (·.1) = properties.map (·.1) := by
  simp

theorem buildItems_eq_ok {index : Nat} {values : List Value}
    (hitems : ∀ item ∈ items, Builds registry (builder registry item) item)
    (h : buildItems path index (items.map (builder registry)) nodes = .ok (values, nodes')) :
    GrowsTo ⟨nodes, .null⟩ ⟨nodes', .null⟩ ∧
      List.Forall₂ (Depicts ⟨nodes', .null⟩ registry) values items := by
  induction items generalizing index nodes values with
  | nil =>
      obtain ⟨rfl, rfl⟩ := Prod.mk.inj (Except.ok.inj h)
      exact ⟨fun _ _ hnode => hnode, .nil⟩
  | cons item items ih =>
      rw [List.map_cons, buildItems] at h
      obtain ⟨⟨value, between⟩, hvalue, h₁⟩ := bind_eq_ok.mp h
      obtain ⟨⟨rest, last⟩, hrest, h₂⟩ := bind_eq_ok.mp h₁
      obtain ⟨rfl, rfl⟩ := Prod.mk.inj (Except.ok.inj h₂)
      obtain ⟨hgrows, hdepicts⟩ := hitems item List.mem_cons_self _ _ _ _ hvalue
      obtain ⟨hgrows', hdepicts'⟩ :=
        ih (fun other hother => hitems other (List.mem_cons_of_mem item hother)) hrest
      exact ⟨hgrows.trans hgrows', .cons (hdepicts.mono hgrows') hdepicts'⟩

/-- The properties of the given names are built in the order of these names. -/
theorem buildProperties_eq_ok {names : List String} {fields : List (String × Value)}
    (hproperties : ∀ property ∈ properties, Builds registry (builder registry property.2) property.2)
    (h : buildProperties path (properties.map fun property => (property.1, builder registry property.2))
      names nodes = .ok (fields, nodes')) :
    GrowsTo ⟨nodes, .null⟩ ⟨nodes', .null⟩ ∧
      fields.map (·.1) = names.filter (fun name => (properties.lookup name).isSome) ∧
      ∀ name value json, (name, value) ∈ fields → properties.lookup name = some json →
        Depicts ⟨nodes', .null⟩ registry value json := by
  induction names generalizing nodes fields with
  | nil =>
      obtain ⟨rfl, rfl⟩ := Prod.mk.inj (Except.ok.inj h)
      exact ⟨fun _ _ hnode => hnode, rfl, fun _ _ _ hmem => absurd hmem List.not_mem_nil⟩
  | cons name names ih =>
      rw [buildProperties, lookup_map] at h
      cases hlookup : properties.lookup name with
      | none =>
          rw [hlookup] at h
          rw [List.filter_cons_of_neg (by simp [hlookup])]
          exact ih h
      | some json =>
          rw [hlookup] at h
          obtain ⟨⟨value, between⟩, hvalue, h₁⟩ := bind_eq_ok.mp h
          obtain ⟨⟨rest, last⟩, hrest, h₂⟩ := bind_eq_ok.mp h₁
          obtain ⟨rfl, rfl⟩ := Prod.mk.inj (Except.ok.inj h₂)
          obtain ⟨hgrows, hdepicts⟩ := hproperties _ (mem_of_lookup hlookup) _ _ _ _ hvalue
          obtain ⟨hgrows', hnames, hdepicts'⟩ := ih hrest
          refine ⟨hgrows.trans hgrows', ?_, fun other found other' hmem hother => ?_⟩
          · rw [List.filter_cons_of_pos (by simp [hlookup]), List.map_cons, hnames]
          · rcases List.mem_cons.mp hmem with heq | hmem
            · obtain ⟨rfl, rfl⟩ := Prod.mk.inj heq
              obtain rfl := Option.some.inj (hlookup.symm.trans hother)
              exact hdepicts.mono hgrows'
            · exact hdepicts' other found other' hmem hother

/-- Every property but the one under the type key comes up once among the fields. -/
theorem nodup_fieldOrder {typeKey : String} {declared names : List String} (hdeclared : declared.Nodup)
    (hnames : names.Nodup) : (fieldOrder typeKey declared names).Nodup := by
  refine List.nodup_append.mpr ⟨hdeclared, hnames.filter _, fun name hname other hother heq => ?_⟩
  obtain ⟨-, hkeep⟩ := List.mem_filter.mp hother
  simp [← heq, hname] at hkeep

theorem mem_fieldOrder {typeKey name : String} {declared names : List String}
    (hkey : typeKey ∉ declared) (hname : name ∈ names) :
    name ∈ fieldOrder typeKey declared names ↔ name ≠ typeKey := by
  unfold fieldOrder
  rw [List.mem_append, List.mem_filter]
  constructor
  · intro hmem heq
    rcases hmem with hmem | ⟨-, hkeep⟩
    · exact hkey (heq ▸ hmem)
    · simp [heq] at hkeep
  · intro hne
    by_cases hmem : name ∈ declared
    · exact Or.inl hmem
    · exact Or.inr ⟨hname, by simp [hne, hmem]⟩

theorem builds_plain {build : Builder} (h : ∀ path nodes, build path nodes = .ok (value, nodes))
    (hdepicts : ∀ tree : Tree, tree.Depicts registry value json) : Builds registry build json := by
  intro path nodes value' nodes' hbuild
  obtain ⟨rfl, rfl⟩ := Prod.mk.inj (Except.ok.inj ((h path nodes).symm.trans hbuild))
  exact ⟨fun _ _ hnode => hnode, hdepicts _⟩

theorem builds_array (hitems : ∀ item ∈ items, Builds registry (builder registry item) item) :
    Builds registry (builder registry (.array items)) (.array items) := by
  intro path nodes value nodes' h
  rw [builder, itemBuilders_eq_map] at h
  obtain ⟨⟨values, between⟩, hvalues, h₁⟩ := bind_eq_ok.mp h
  obtain ⟨rfl, rfl⟩ := Prod.mk.inj (Except.ok.inj h₁)
  obtain ⟨hgrows, hdepicts⟩ := buildItems_eq_ok hitems hvalues
  have hpush := growsTo_push between (.array values) .null .null
  have hdepicts := hdepicts.imp fun _ _ hdepict => hdepict.mono hpush
  exact ⟨hgrows.trans hpush, .array (by simp [array?, node?]) hdepicts.length_eq fun p hp =>
    (List.forall₂_iff_zip.mp hdepicts).2 hp⟩

theorem builds_object (hregistry : description.build = .ok registry) (hsorted : properties.Sorted)
    (hproperties : ∀ property ∈ properties, Builds registry (builder registry property.2) property.2) :
    Builds registry (builder registry (.object properties)) (.object properties) := by
  intro path nodes value nodes' h
  rw [builder, propertyBuilders_eq_map] at h
  cases hnamed : typeName? registry properties with
  | none => simp [hnamed, buildObject] at h
  | some name =>
      rw [hnamed] at h
      obtain ⟨shape, hshape, h₁⟩ := bind_eq_ok.mp h
      obtain ⟨⟨fields, between⟩, hfields, h₂⟩ := bind_eq_ok.mp h₁
      obtain ⟨rfl, rfl⟩ := Prod.mk.inj (Except.ok.inj h₂)
      obtain ⟨hgrows, hnames, hdepicts⟩ := buildProperties_eq_ok hproperties hfields
      have hnodup : (fields.map (·.1)).Nodup := by
        rw [hnames]
        refine (nodup_fieldOrder ?_ ?_).filter _
        · exact (RegistryDescription.valid_of_build hregistry).fields_nodup_names shape
        · simpa [Function.comp_def] using hsorted.nodup
      have hpush := growsTo_push between (.object (Object.ofFields name fields)) .null .null
      have hobject : object? ⟨between.push (.object (Object.ofFields name fields)), .null⟩
          ⟨between.size⟩ = some ⟨name, fields⟩ := by
        simp [object?, node?, Object.fields_ofFields hnodup]
      refine ⟨hgrows.trans hpush, .object hobject hnamed hnodup (fun other => ?_)
        fun other value json hmem hlookup => (hdepicts other value json hmem hlookup).mono hpush⟩
      rw [hnames, List.mem_filter, isSome_lookup]
      refine and_congr_left fun hother => mem_fieldOrder (Registry.typeKey_notMem hregistry shape) ?_
      simpa using hother

/-- Every part of a document in order is built as the document has it. -/
theorem builds (hregistry : description.build = .ok registry) (h : json.Ordered) :
    Builds registry (builder registry json) json := by
  induction h with
  | null => exact builds_plain (fun _ _ => rfl) fun _ => .null
  | boolean flag => exact builds_plain (fun _ _ => rfl) fun _ => .boolean flag
  | integer number => exact builds_plain (fun _ _ => rfl) fun _ => .integer number
  | float number => exact builds_plain (fun _ _ => rfl) fun _ => .float number
  | string text => exact builds_plain (fun _ _ => rfl) fun _ => .string text
  | array _ ih => exact builds_array ih
  | object sorted _ ih => exact builds_object hregistry sorted ih

/-- The tree of a document in order depicts it. -/
theorem depicts_of_ofJson (hregistry : description.build = .ok registry) (hordered : json.Ordered)
    (h : ofJson registry json = .ok tree) : tree.Depicts registry tree.root json := by
  obtain ⟨⟨root, nodes⟩, hbuild, h₁⟩ := bind_eq_ok.mp h
  obtain rfl := Except.ok.inj h₁
  exact (builds hregistry hordered _ _ _ _ hbuild).2.mono fun _ _ hnode => hnode

end Tree

end SyntaxPack
