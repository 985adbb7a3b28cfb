import SyntaxPack.Proofs.Double
import SyntaxPack.Proofs.Json.Offences
import SyntaxPack.Proofs.Tree.Bisimulation
/-!
# SyntaxPack.Proofs.Json.Expressible

Trees survive documents.

A tree that a document can express (`Tree.Expressible`) depicts the document that is written for it
(`Expressible.depicts_document`), and every object in that document can become a shaped one. So the
document is read, and what is read depicts it as well. Two trees that depict one document stand for
the same (`structuralEq_of_depicts`): nodes are related if there is a part of the document that
both of them depict, and that is a bisimulation.
-/

namespace SyntaxPack

namespace Tree

variable {description : RegistryDescription} {registry : Registry} {tree a b : Tree}
  {value left right : Value} {json : Json} {id x y : NodeId} {object : Object}

/-! ### Trees that documents can express

A document has no sharing, no cycles, no numbers that are not finite and no property twice, and the
name of the type stands under a key of its own. `Expressible` asks for what follows from this, and
only of what the root leads to. -/

/-- The root, or a value in a node that the root leads to. -/
inductive Met (tree : Tree) : Value → Prop
  | root : Met tree tree.root
  | child {id : NodeId} {node : Node} {value : Value} (reachable : tree.Reachable id)
      (found : tree.node? id = some node) (mem : value ∈ node.children) : Met tree value

/-- A tree that a document can express. Only what the root leads to counts. -/
structure Expressible (tree : Tree) (registry : Registry) : Prop where
  acyclic : ∀ id, tree.Reachable id → ¬ tree.Reaches id id
  resolves : ∀ value, tree.Met value → tree.Resolves value
  finite : ∀ d, tree.Met (.number d) → d.isFinite = true
  registered : ∀ id object, tree.Reachable id → tree.object? id = some object →
    ∃ shape ∈ registry.shapes, shape.name = object.shape
  /-- The names of the fields are distinct, and none of them is the type key. -/
  names : ∀ id object, tree.Reachable id → tree.object? id = some object →
    (registry.typeKey :: object.fields.map (·.1)).Nodup

theorem Met.reachable (h : tree.Met value) (hid : value.node? = some id) : tree.Reachable id := by
  cases h with
  | root => exact ⟨id, hid, .refl⟩
  | child reachable found mem =>
      obtain ⟨root, hroot, hpath⟩ := reachable
      exact ⟨root, hroot, hpath.tail (refers_of_mem_children found mem hid)⟩

theorem Met.below (h : tree.Met value) (hid : value.node? = some id) {node : Node}
    (hnode : tree.node? id = some node) {child : Value} (hchild : child ∈ node.children) :
    tree.Met child :=
  .child (h.reachable hid) hnode hchild

theorem Expressible.acyclicFrom (h : tree.Expressible registry) (hmet : tree.Met value) :
    tree.AcyclicFrom value := by
  intro id hid other hother
  obtain ⟨root, hroot, hpath⟩ := hmet.reachable hid
  exact h.acyclic other ⟨root, hroot, hpath.trans hother⟩

/-! ### Writing

A value depicts a part of a document if both have one content: numbers and texts, items one by one,
and the fields of an object in whatever order. What is written for a value is depicted by it, by
induction on the nodes below it. -/

/-- A finite number depicts the form in which it is written, whichever of the three that is. -/
theorem depicts_ofNumber {d : Double} (h : d.isFinite = true) :
    tree.Depicts registry (.number d) (Json.ofNumber d) := by
  have hinteger : ∀ i, Double.ofInt i = d → tree.Depicts registry (.number d) (.integer i) :=
    fun i heq => heq ▸ .integer i
  unfold Json.ofNumber
  split
  · rename_i hpayload
    exact hinteger _ (Double.ofInt_of_integerPayload hpayload)
  · split
    · rename_i hexact
      split
      · rename_i hlt
        refine hinteger _ (Double.ofInt_of_exactInt? hexact ?_)
        simp only [Double.hiddenBit]
        omega
      · exact .float d
    · rw [if_pos h]
      exact .float d

/-- An object depicts the properties that are written for it if its fields do. -/
theorem depicts_ofProperties (hobject : tree.object? id = some object)
    (hnames : (registry.typeKey :: object.fields.map (·.1)).Nodup) {write : Value → Json}
    (hfields : ∀ field ∈ object.fields, tree.Depicts registry field.2 (write field.2)) :
    tree.Depicts registry (.object id) (.ofProperties ((registry.typeKey, .string object.shape) ::
      object.fields.map fun field => (field.1, write field.2))) := by
  obtain ⟨hkey, hnodup⟩ := List.nodup_cons.mp hnames
  have hentries : (((registry.typeKey, Json.string object.shape) ::
      object.fields.map fun field => (field.1, write field.2)).map (·.1)).Nodup := by
    simpa [Function.comp_def] using hnames
  have hlookup := fun name => (Json.Properties.lookup_ofList hentries name).trans
    (lookup_entries registry.typeKey object.shape object.fields write name)
  refine .object hobject (typeName?_eq_some.mpr ?_) hnodup (fun name => ?_) ?_
  · rw [hlookup, if_pos rfl]
  · rw [← isSome_lookup, ← isSome_lookup, hlookup]
    by_cases heq : name = registry.typeKey
    · simp [heq, lookup_eq_none.mpr hkey]
    · simp [heq]
  · intro name value json hfield hjson
    have hne : name ≠ registry.typeKey := fun heq => hkey (heq ▸ List.mem_map_of_mem hfield)
    rw [hlookup, if_neg hne, lookup_of_mem hnodup hfield] at hjson
    exact Option.some.inj hjson ▸ hfields _ hfield

/-- What a tree that a document can express leads to depicts the document written for it. -/
theorem Expressible.depicts_document (h : tree.Expressible registry) (hmet : tree.Met value) :
    tree.Depicts registry value (tree.document registry value) := by
  refine AcyclicFrom.induction (motive := fun value => tree.Met value →
    tree.Depicts registry value (tree.document registry value)) ?_ (h.acyclicFrom hmet) hmet
  intro value hacyclic ih hmet
  cases value with
  | null =>
      rw [document, valueToJson]
      exact .null
  | boolean flag =>
      rw [document, valueToJson]
      exact .boolean flag
  | number d =>
      rw [document, valueToJson]
      exact depicts_ofNumber (h.finite d hmet)
  | string text =>
      rw [document, valueToJson]
      exact .string text
  | array id =>
      obtain ⟨elements, harray⟩ := Option.isSome_iff_exists.mp (h.resolves _ hmet)
      have hnode := array?_eq_some_iff.mp harray
      have helements : ∀ child ∈ elements,
          tree.Depicts registry child (tree.document registry child) :=
        fun child hchild => ih id _ rfl hnode child hchild (hmet.below rfl hnode hchild)
      rw [document_array hacyclic harray]
      refine .array harray (by simp) fun p hp => ?_
      obtain ⟨i, hi, rfl⟩ := List.mem_iff_getElem.mp hp
      rw [List.getElem_zip, List.getElem_map]
      exact helements _ (List.getElem_mem _)
  | object id =>
      obtain ⟨object, hobject⟩ := Option.isSome_iff_exists.mp (h.resolves _ hmet)
      have hnode := object?_eq_some_iff.mp hobject
      rw [document_object hacyclic hobject]
      refine depicts_ofProperties hobject (h.names id object (hmet.reachable rfl) hobject)
        fun field hfield => ?_
      have hchild : field.2 ∈ (Node.object object).children := List.mem_map_of_mem hfield
      exact ih id _ rfl hnode field.2 hchild (hmet.below rfl hnode hchild)

theorem ordered_ofNumber (d : Double) : (Json.ofNumber d).Ordered := by
  unfold Json.ofNumber
  split
  · exact .integer _
  · split
    · split
      · exact .integer _
      · exact .float d
    · split
      · exact .float d
      · exact .null

theorem ordered_nodeToJson {write : Value → Json} (h : ∀ value, (write value).Ordered)
    (typeKey : String) (node : Option Node) : (nodeToJson typeKey write node).Ordered := by
  cases node with
  | none => exact .null
  | some node =>
      cases node with
      | array elements =>
          refine .array fun item hitem => ?_
          obtain ⟨element, -, rfl⟩ := List.mem_map.mp hitem
          exact h element
      | object object =>
          refine .object (Json.Properties.sorted_ofList _) fun property hproperty => ?_
          rcases List.mem_cons.mp (Json.Properties.mem_ofList hproperty) with rfl | hproperty
          · exact .string _
          · obtain ⟨field, -, rfl⟩ := List.mem_map.mp hproperty
            exact h field.2

/-- Documents that are written are in order. -/
theorem ordered_valueToJson (tree : Tree) (typeKey : String) (depth : Nat) (value : Value) :
    (valueToJson tree typeKey depth value).Ordered := by
  induction depth generalizing value with
  | zero =>
      cases value with
      | number d => exact ordered_ofNumber d
      | boolean flag => exact .boolean flag
      | string text => exact .string text
      | null | array _ | object _ => exact .null
  | succ depth ih =>
      cases value with
      | number d => exact ordered_ofNumber d
      | boolean flag => exact .boolean flag
      | string text => exact .string text
      | null => exact .null
      | array id | object id =>
          rw [valueToJson_succ rfl]
          exact ordered_nodeToJson ih typeKey (tree.node? id)

/-- Every object in a document that is depicted can become a shaped one. -/
theorem Expressible.clean (h : tree.Expressible registry)
    (hdepicts : tree.Depicts registry value json) (hmet : tree.Met value) :
    Json.Clean registry json := by
  induction hdepicts with
  | null | boolean _ | integer _ | float _ | string _ =>
      exact Json.clean_plain (fun step => by cases step <;> rfl) fun _ h => nomatch h
  | @array id elements items found length_eq _ ih =>
      refine Json.clean_of_steps (fun _ h => nomatch h) fun step child hstep => ?_
      cases step with
      | property => cases hstep
      | item i =>
          obtain ⟨hi, rfl⟩ := List.getElem?_eq_some_iff.mp hstep
          have hi' : i < elements.length := length_eq ▸ hi
          exact ih _ (getElem_mem_zip length_eq hi')
            (hmet.below rfl (array?_eq_some_iff.mp found) (List.getElem_mem hi'))
  | @object id object properties found named nodup names _ ih =>
      have hnode := object?_eq_some_iff.mp found
      refine Json.clean_of_steps (fun other heq => ?_) fun step child hstep => ?_
      · obtain rfl := Json.object.inj heq
        exact ⟨object.shape, typeName?_eq_some.mp named,
          h.registered id object (hmet.reachable rfl) found⟩
      · cases step with
        | item => cases hstep
        | property name =>
            by_cases hkey : name = registry.typeKey
            · subst hkey
              obtain rfl := Option.some.inj ((typeName?_eq_some.mp named).symm.trans hstep)
              exact Json.clean_string _
            · have hmem : name ∈ properties.map (·.1) :=
                isSome_lookup.mp (Option.isSome_of_eq_some hstep)
              obtain ⟨field, hfield, rfl⟩ := List.mem_map.mp ((names name).mpr ⟨hkey, hmem⟩)
              exact ih field.1 field.2 child hfield hstep
                (hmet.below rfl hnode (List.mem_map_of_mem hfield))

/-! ### Reading

Two trees depict one document: the tree that was written and the one that is read. Nodes that depict
one part of it agree, and the parts below them are depicted by the nodes below. -/

/-- Nodes that depict one part of a document. -/
inductive DepictSame (registry : Registry) (a b : Tree) (x y : NodeId) : Prop
  | array {items : List Json} (hx : a.Depicts registry (.array x) (.array items))
      (hy : b.Depicts registry (.array y) (.array items))
  | object {properties : Json.Properties} (hx : a.Depicts registry (.object x) (.object properties))
      (hy : b.Depicts registry (.object y) (.object properties))

theorem alike_of_depicts (hx : a.Depicts registry left json) (hy : b.Depicts registry right json) :
    Alike (DepictSame registry a b) left right := by
  cases hx with
  | null | boolean _ | integer _ | float _ | string _ =>
      cases hy
      exact .plain rfl
  | array found length_eq depicted =>
      cases hy with
      | array found' length_eq' depicted' =>
          exact .array (.array (.array found length_eq depicted)
            (.array found' length_eq' depicted'))
  | object found named nodup names depicted =>
      cases hy with
      | object found' named' nodup' names' depicted' =>
          exact .object (.object (.object found named nodup names depicted)
            (.object found' named' nodup' names' depicted'))

/-- A field that is set stands among the fields with the value that it reads as. -/
theorem field_mem_of_name {name : String} (h : name ∈ object.fields.map (·.1)) :
    (name, object.get name) ∈ object.fields := by
  obtain ⟨value, hvalue⟩ := Option.isSome_iff_exists.mp (isSome_lookup.mpr h)
  rw [Object.get, Object.get?, hvalue]
  exact mem_of_lookup hvalue

/-- Nodes that depict one part of a document agree. -/
theorem DepictSame.agree (h : DepictSame registry a b x y) :
    Agree a b (DepictSame registry a b) x y := by
  cases h with
  | array hx hy =>
      cases hx with | array found length_eq depicted => ?_
      cases hy with | array found' length_eq' depicted' => ?_
      refine .array found found' (List.forall₂_iff_get.mpr
        ⟨length_eq.trans length_eq'.symm, fun i hi hi' => ?_⟩)
      exact alike_of_depicts (depicted _ (getElem_mem_zip length_eq hi))
        (depicted' _ (getElem_mem_zip length_eq' hi'))
  | @object properties hx hy =>
      cases hx with | object found named nodup names depicted => ?_
      cases hy with | object found' named' nodup' names' depicted' => ?_
      refine .object found found' (Option.some.inj (named.symm.trans named')) fun name hname => ?_
      have hproperty : name ≠ registry.typeKey ∧ name ∈ properties.map (·.1) := by
        rw [List.map_append, List.mem_append] at hname
        exact hname.elim (names name).mp (names' name).mp
      obtain ⟨child, hchild⟩ := Option.isSome_iff_exists.mp (isSome_lookup.mpr hproperty.2)
      exact alike_of_depicts
        (depicted name _ child (field_mem_of_name ((names name).mpr hproperty)) hchild)
        (depicted' name _ child (field_mem_of_name ((names' name).mpr hproperty)) hchild)

/-- Trees that depict one document stand for the same. -/
theorem structuralEq_of_depicts (ha : a.Depicts registry a.root json)
    (hb : b.Depicts registry b.root json) : a.structuralEq b = true :=
  structuralEq_iff_bisimulation.mpr
    ⟨DepictSame registry a b, fun _ _ => DepictSame.agree, alike_of_depicts ha hb⟩

/-- A tree that a document can express is read from the document that is written for it. -/
theorem ofJson_toJson (hregistry : description.build = .ok registry)
    (h : tree.Expressible registry) : ∃ read, ofJson registry (tree.toJson registry) = .ok read ∧
      read.structuralEq tree = true := by
  rw [toJson_eq_document]
  have hdepicts := h.depicts_document .root
  have hordered : (tree.document registry tree.root).Ordered :=
    ordered_valueToJson tree registry.typeKey tree.size tree.root
  have houtcome := Json.outcome_ofJson hregistry hordered
  obtain ⟨read, hread⟩ := houtcome.ok_iff.mpr (h.clean hdepicts .root)
  exact ⟨read, hread, structuralEq_of_depicts (depicts_of_ofJson hregistry hordered hread) hdepicts⟩

/-- What is met stands in the arena, or is the root. -/
theorem Met.mem_values (h : tree.Met value) :
    value ∈ tree.root :: tree.nodes.toList.flatMap Node.children := by
  cases h with
  | root => exact List.mem_cons_self
  | child _ found mem =>
      have hnode := Array.mem_toList_iff.mpr (Array.mem_of_getElem? found)
      exact List.mem_cons_of_mem _ (List.mem_flatMap.mpr ⟨_, hnode, mem⟩)

/-- A pair with an undeclared field in front, whose two arrays are one. The numbers in it are the
negative zero, the last one that is written as an integer, the next one, and `2 ^ 60`. -/
def pairOfNumbers : Tree where
  nodes := #[.array [.number ⟨0x8000000000000000⟩, .number ⟨0x433ff973cafa7fff⟩,
      .number ⟨0x433ff973cafa8000⟩, .number ⟨0x43b0000000000000⟩],
    .object ⟨"Pair", [("note", .array ⟨0⟩), ("left", .number ⟨0x3ff0000000000000⟩),
      ("next", .array ⟨0⟩)]⟩]
  root := .object ⟨1⟩

theorem pairOfNumbers_expressible : pairOfNumbers.Expressible .pairs where
  acyclic id _ := findCycle_eq_none_iff.mp (by decide) id
  resolves value hmet := by
    have hmem := hmet.mem_values
    simp [pairOfNumbers, Node.children] at hmem
    rcases hmem with rfl | rfl | rfl | rfl | rfl | rfl | rfl | rfl <;> trivial
  finite d hmet := by
    have hmem := hmet.mem_values
    simp [pairOfNumbers, Node.children] at hmem
    rcases hmem with rfl | rfl | rfl | rfl | rfl <;> decide
  registered id object _ hobject := by
    have hmem := Array.mem_of_getElem? (object?_eq_some_iff.mp hobject)
    simp [pairOfNumbers] at hmem
    exact ⟨_, List.mem_singleton_self _, by rw [hmem]⟩
  names id object _ hobject := by
    have hmem := Array.mem_of_getElem? (object?_eq_some_iff.mp hobject)
    simp [pairOfNumbers] at hmem
    rw [hmem]
    decide

/-- All of it comes back, the array once for each of the two fields. -/
theorem ofJson_pairOfNumbers : RegistryDescription.pairs.build = .ok .pairs ∧
    pairOfNumbers.Expressible .pairs ∧
    pairOfNumbers.toJson .pairs = .object [("left", .integer 1),
      ("next", .array [.float ⟨0x8000000000000000⟩, .integer 8999999999999999,
        .float ⟨0x433ff973cafa8000⟩, .float ⟨0x43b0000000000000⟩]),
      ("note", .array [.float ⟨0x8000000000000000⟩, .integer 8999999999999999,
        .float ⟨0x433ff973cafa8000⟩, .float ⟨0x43b0000000000000⟩]),
      ("type", .string "Pair")] ∧
    ∃ read, ofJson .pairs (pairOfNumbers.toJson .pairs) = .ok read ∧
      read.structuralEq pairOfNumbers = true :=
  ⟨Registry.build_pairs, pairOfNumbers_expressible, by rfl,
    ofJson_toJson Registry.build_pairs pairOfNumbers_expressible⟩

end Tree

end SyntaxPack
