import SyntaxPack.Proofs.Decode.Soundness
import SyntaxPack.Proofs.Json.Depicted
import SyntaxPack.Proofs.Json.Places
import SyntaxPack.Proofs.RoundTrip.Readable
/-!
# SyntaxPack.Proofs.Json.Survival

Documents survive modules.

A document that is read, encoded, decoded and written again comes back settled: its numbers are
in the form in which numbers are written, declared fields that it lacked are explicitly null, and
undeclared properties are gone if the encoder was told to ignore them. Nothing else changes. The
tree that was read depicts the document, and what is decoded looks like that tree node by node;
so the proof goes along the document, and an object is written with the settled properties since
it has the same lookups.
-/

namespace SyntaxPack

namespace Json

variable {registry : Registry} {properties : Properties} {name : String} {shape : ShapeId}

/-- Whether a property of an object is kept: any but an undeclared one that is to be dropped. -/
def keeps (registry : Registry) (dropUndeclared : Bool) (properties : Properties) (name : String) :
    Bool :=
  name = registry.typeKey || (declaredNames registry properties).contains name || !dropUndeclared

/-- The declared fields that an object lacks, as nulls. -/
def missing (registry : Registry) (properties : Properties) : Properties :=
  ((declaredNames registry properties).filter fun name => (properties.lookup name).isNone).map
    fun name => (name, .null)

mutual

/-- A document as it comes back from a module. -/
def settled (registry : Registry) (dropUndeclared : Bool) : Json → Json
  | .null => .null
  | .boolean value => .boolean value
  | .integer value => ofNumber (Double.ofInt value)
  | .float value => ofNumber value
  | .string value => .string value
  | .array items => .array (settledItems registry dropUndeclared items)
  | .object properties =>
    .ofProperties <| (settledProperties registry dropUndeclared properties).filter
      (fun property => keeps registry dropUndeclared properties property.1) ++
        missing registry properties

/-- The items of an array as they come back. -/
def settledItems (registry : Registry) (dropUndeclared : Bool) : List Json → List Json
  | [] => []
  | item :: items =>
    item.settled registry dropUndeclared :: settledItems registry dropUndeclared items

/-- The properties of an object as they come back, if they are kept. -/
def settledProperties (registry : Registry) (dropUndeclared : Bool) :
    List (String × Json) → List (String × Json)
  | [] => []
  | (name, value) :: properties =>
    (name, value.settled registry dropUndeclared) ::
      settledProperties registry dropUndeclared properties

end

variable {dropUndeclared : Bool}

@[simp] theorem settledItems_eq_map (registry : Registry) (dropUndeclared : Bool) (items : List Json) :
    settledItems registry dropUndeclared items = items.map (settled registry dropUndeclared) := by
  induction items with
  | nil => rfl
  | cons item items ih => simp [settledItems, ih]

@[simp] theorem settledProperties_eq_map (registry : Registry) (dropUndeclared : Bool)
    (properties : List (String × Json)) : settledProperties registry dropUndeclared properties =
      properties.map fun property => (property.1, property.2.settled registry dropUndeclared) := by
  induction properties with
  | nil => rfl
  | cons property properties ih => simp [settledProperties, ih]

/-! ### The properties of a settled object -/

theorem keeps_of_declared (h : name ∈ declaredNames registry properties) :
    keeps registry dropUndeclared properties name = true := by
  simp [keeps, h]

theorem keeps_of_undeclared (hkey : name ≠ registry.typeKey)
    (h : name ∉ declaredNames registry properties) :
    keeps registry dropUndeclared properties name = !dropUndeclared := by
  simp [keeps, hkey, h]

/-- The properties that an object comes back with, in no particular order. -/
def settledEntries (registry : Registry) (dropUndeclared : Bool) (properties : Properties) :
    Properties :=
  ((properties.map fun property => (property.1, property.2.settled registry dropUndeclared)).filter
    fun property => keeps registry dropUndeclared properties property.1) ++ missing registry properties

theorem settled_object (registry : Registry) (dropUndeclared : Bool) (properties : Properties) :
    (Json.object properties).settled registry dropUndeclared =
      .ofProperties (settledEntries registry dropUndeclared properties) := by
  rw [settled, settledProperties_eq_map]
  rfl

/-- A property that is there comes back settled if it is kept, and one that is not comes back as
null if it is declared. -/
theorem lookup_settledEntries (name : String) :
    (settledEntries registry dropUndeclared properties).lookup name =
      match properties.lookup name with
      | some value => if keeps registry dropUndeclared properties name = true then
          some (value.settled registry dropUndeclared) else none
      | none => if name ∈ declaredNames registry properties then some .null else none := by
  have hmissing : (missing registry properties).lookup name =
      if name ∈ declaredNames registry properties ∧ properties.lookup name = none then some .null
      else none := by
    rw [missing, lookup_map_const]
    refine if_congr ?_ rfl rfl
    simp [List.mem_filter]
  rw [settledEntries, List.lookup_append, lookup_filter, lookup_map, hmissing]
  cases properties.lookup name with
  | none => simp
  | some value => simp

theorem nodup_settledEntries (hr : registry.Valid) (hsorted : properties.Sorted) :
    ((settledEntries registry dropUndeclared properties).map (·.1)).Nodup := by
  have hnames : (properties.map fun property => (property.1,
      property.2.settled registry dropUndeclared)).map (·.1) = properties.map (·.1) := by simp
  have hmissing : (missing registry properties).map (·.1) =
      (declaredNames registry properties).filter fun name => (properties.lookup name).isNone := by
    simp [missing, Function.comp_def]
  rw [settledEntries, List.map_append, hmissing]
  refine List.nodup_append.mpr ⟨?_, (nodup_declaredNames hr properties).filter _,
    fun name hname other hother heq => ?_⟩
  · exact (hnames ▸ hsorted.nodup).sublist (List.filter_sublist.map _)
  · have hfound := isSome_lookup.mpr (hnames ▸ (List.filter_sublist.map _).subset hname)
    have hnone := Option.isNone_iff_eq_none.mp (List.mem_filter.mp hother).2
    simp [heq, hnone] at hfound

end Json

/-! ### Objects that are decoded -/

namespace Tree

variable {description : RegistryDescription} {registry : Registry} {tree decoded : Tree}
  {related : NodeId → NodeId → Prop} {value value' : Value} {json : Json} {id : NodeId}
  {object : Object} {shape : ShapeId} {dropUndeclared : Bool}

theorem Conforms.acyclicFrom (h : tree.Conforms registry) (value : Value) : tree.AcyclicFrom value :=
  fun _ _ other _ => h.acyclic other

/-- An object in a conforming tree is written with its shape under the type key and with every
declared field. -/
theorem Conforms.lookup_document (h : tree.Conforms registry) (hobject : tree.object? id = some object)
    (hshape : registry.lookup object.shape = some shape) (write : Value → Json) (name : String) :
    ((registry.typeKey, Json.string object.shape) ::
      object.fields.map fun field => (field.1, write field.2)).lookup name =
        if name = registry.typeKey then some (.string object.shape)
        else if name ∈ (registry.fields shape).map (·.name) then some (write (object.get name))
        else none := by
  rw [lookup_entries, ← h.names_eq hobject hshape]
  refine if_congr Iff.rfl rfl ?_
  split
  · rename_i hmem
    obtain ⟨value, hvalue⟩ := Option.isSome_iff_exists.mp (isSome_lookup.mpr hmem)
    simp [Object.get, Object.get?, hvalue]
  · rename_i hmem
    simp [lookup_eq_none.mpr hmem]

theorem declares_iff {name : String} : registry.declares shape name = true ↔
    name ∈ (registry.fields shape).map (·.name) := by
  simp [Registry.declares]

/-- Two values that are alike, one of them null, are both null. -/
theorem Alike.eq_null (h : Alike related value .null) : value = .null := by
  cases h
  rfl

section Written

variable (hregistry : description.build = .ok registry) (hconforms : decoded.Conforms registry)
  (hsame : Corresponding decoded tree registry related)
  (honly : dropUndeclared = false → ∀ x y, related x y → tree.OnlyDeclared registry y)
include hregistry hconforms hsame honly

/-- What looks like the object of a document is written as the settled object, if this holds of its
properties. -/
theorem document_object_eq {x y : NodeId} {properties : Json.Properties} (hxy : related x y)
    (hobject : tree.object? y = some object)
    (hnamed : typeName? registry properties = some object.shape)
    (hnames : ∀ name, name ∈ object.fields.map (·.1) ↔
      name ≠ registry.typeKey ∧ name ∈ properties.map (·.1))
    (hsorted : properties.Sorted)
    (hfields : ∀ name value json, (name, value) ∈ object.fields →
      properties.lookup name = some json → ∀ value', Alike related value' value →
        decoded.document registry value' = json.settled registry dropUndeclared) :
    decoded.document registry (.object x) = (Json.object properties).settled registry dropUndeclared := by
  have hr := RegistryDescription.valid_of_build hregistry
  obtain ⟨other, shape, hother, hname, hshape, halike⟩ := (hsame x y hxy).of_object hobject
  have hnamesOther := hconforms.names_eq hother (hname ▸ hshape)
  have hdeclared := Json.declaredNames_eq hnamed hshape
  rw [document_object (hconforms.acyclicFrom _) hother, Json.settled_object]
  refine Json.ofProperties_eq ?_ (Json.nodup_settledEntries hr hsorted) fun name => ?_
  · simp only [List.map_cons, List.map_map, Function.comp_def, hnamesOther]
    exact List.nodup_cons.mpr
      ⟨Registry.typeKey_notMem hregistry shape, hr.fields_nodup_names shape⟩
  rw [hconforms.lookup_document hother (hname ▸ hshape), Json.lookup_settledEntries, ← hdeclared]
  by_cases hkey : name = registry.typeKey
  · simp [hkey, typeName?_eq_some.mp hnamed, Json.keeps, Json.settled, hname]
  rw [if_neg hkey]
  -- a declared field is alike in both trees, and is null if the document lacks it
  have hget : name ∈ Json.declaredNames registry properties →
      Alike related (other.get name) (object.get name) := fun hmem => by
    obtain ⟨field, hfield, rfl⟩ := List.mem_map.mp (hdeclared ▸ hmem)
    exact halike field hfield
  cases hlookup : properties.lookup name with
  | none =>
      have hnull : object.get name = .null :=
        get_of_notMem fun hmem => lookup_eq_none.mp hlookup ((hnames name).mp hmem).2
      by_cases hmem : name ∈ Json.declaredNames registry properties
      · have hother : other.get name = .null := Alike.eq_null (hnull ▸ hget hmem)
        simp [hmem, hother, document, valueToJson]
      · simp [hmem]
  | some json =>
      have hproperty : name ∈ properties.map (·.1) := isSome_lookup.mp (by simp [hlookup])
      obtain ⟨value, hvalue⟩ :=
        Option.isSome_iff_exists.mp (isSome_lookup.mpr ((hnames name).mpr ⟨hkey, hproperty⟩))
      have hfield := mem_of_lookup hvalue
      by_cases hmem : name ∈ Json.declaredNames registry properties
      · have hvalue : object.get name = value := by simp [Object.get, Object.get?, hvalue]
        rw [if_pos hmem, hfields name value json hfield hlookup _ (hvalue ▸ hget hmem)]
        simp [Json.keeps_of_declared hmem]
      · rw [if_neg hmem, Json.keeps_of_undeclared hkey hmem]
        cases hdrop : dropUndeclared with
        | true => rfl
        | false =>
            have hdeclares := honly hdrop x y hxy object shape hobject hshape _ hfield
            exact absurd (hdeclared ▸ declares_iff.mp hdeclares) hmem

/-- What looks like the tree of a document is written as the settled document. -/
theorem Depicts.document_eq (h : tree.Depicts registry value json) (hordered : json.Ordered)
    (halike : Alike related value' value) :
    decoded.document registry value' = json.settled registry dropUndeclared := by
  induction h generalizing value' with
  | null | boolean _ | integer _ | float _ | string _ =>
      cases halike
      simp [document, valueToJson, Json.settled]
  | @array id elements items found length_eq _ ih =>
      cases hordered with | array items_ordered => ?_
      cases halike with
      | plain hnode => simp [Value.node?] at hnode
      | @array x _ hxy => ?_
      cases hsame x id hxy with
      | object _ hy _ => simp [array?_eq_none_of_shape hy] at found
      | array hx hy hslots => ?_
      obtain rfl := Option.some.inj (hy.symm.trans found)
      rw [document_array (hconforms.acyclicFrom _) hx, Json.settled, Json.settledItems_eq_map]
      have hlength := hslots.length_eq.trans length_eq
      refine congrArg Json.array (List.ext_getElem (by simpa using hlength) fun i hi hi' => ?_)
      rw [List.getElem_map, List.getElem_map]
      simp only [List.length_map] at hi hi'
      have hvalue := hslots.length_eq ▸ hi
      exact ih _ (getElem_mem_zip length_eq hvalue) (items_ordered _ (List.getElem_mem hi'))
        (hslots.get hi hvalue)
  | @object id object properties found named _ names _ ih =>
      cases hordered with | object sorted values_ordered => ?_
      cases halike with
      | plain hnode => simp [Value.node?] at hnode
      | object hxy => ?_
      exact document_object_eq hregistry hconforms hsame honly hxy found named names sorted
        fun name value json hfield hlookup value' =>
          ih name value json hfield hlookup (values_ordered _ (mem_of_lookup hlookup))

end Written

end Tree

namespace Module

variable {description : RegistryDescription} {registry : Registry} {tree decoded : Tree}
  {config : EncodingConfig} {bytes : List UInt8} {json : Json}

/-- A document that is read, encoded, decoded and written again comes back settled. -/
theorem toJson_of_decode (hregistry : description.build = .ok registry) (hordered : json.Ordered)
    (hread : Tree.ofJson registry json = .ok tree) (hencode : encode tree registry config = .ok bytes)
    (hdecode : decode bytes registry = .ok decoded) :
    decoded.toJson registry = json.settled registry config.ignoreUnknownFields := by
  have hr := RegistryDescription.valid_of_build hregistry
  have hdepicts := Tree.depicts_of_ofJson hregistry hordered hread
  have hacyclic : ∀ id, tree.Reachable id → ¬ tree.Reaches id id := fun id hid => by
    obtain ⟨root, hroot, hpath⟩ := hid
    exact hdepicts.acyclicFrom root hroot id hpath
  obtain ⟨related, hsame, halike, honly⟩ :=
    corresponding_of_decode hr (fun _ => hacyclic) hencode hdecode
  obtain ⟨input, t, rfl, hfinished, hroot, hcycle⟩ := finished_of_decode hr hdecode
  have hconforms := hfinished.conforms hroot hcycle
  exact hdepicts.document_eq hregistry hconforms hsame honly hordered halike

end Module

/-- A pair with an undeclared property. Its first number has a fraction of zero, and the pair in it
lacks its last field. -/
def Json.nestedPair : Json :=
  .object [("left", .float ⟨0x4000000000000000⟩),
    ("next", .object [("left", .integer 1), ("type", .string "Pair")]),
    ("note", .boolean true), ("type", .string "Pair")]

theorem Json.ordered_nestedPair : Json.nestedPair.Ordered := by
  have hinner : (Json.object [("left", .integer 1), ("type", .string "Pair")]).Ordered :=
    .object (by decide) (by simp [Ordered.integer, Ordered.string])
  exact .object (by decide) (by simp [hinner, Ordered.float, Ordered.boolean, Ordered.string])

namespace Module

/-- The pair comes back with the number as an integer, a null and no undeclared property. -/
theorem toJson_nestedPair : RegistryDescription.pairs.build = .ok .pairs ∧
    Json.nestedPair.Ordered ∧ ∃ tree bytes decoded, Tree.ofJson .pairs .nestedPair = .ok tree ∧
      encode tree .pairs { ignoreUnknownFields := true } = .ok bytes ∧
      decode bytes .pairs = .ok decoded ∧
      decoded.toJson .pairs = .object [("left", .integer 2),
        ("next", .object [("left", .integer 1), ("next", .null), ("type", .string "Pair")]),
        ("type", .string "Pair")] := by
  have hsome : ((Tree.ofJson .pairs .nestedPair).toOption.bind fun tree =>
      ((encode tree .pairs { ignoreUnknownFields := true }).toOption.bind fun bytes =>
        (decode bytes .pairs).toOption)).isSome = true := by decide +kernel
  obtain ⟨decoded, hdecoded⟩ := Option.isSome_iff_exists.mp hsome
  obtain ⟨tree, htree, hrest⟩ := Option.bind_eq_some_iff.mp hdecoded
  obtain ⟨bytes, hbytes, hdecoded⟩ := Option.bind_eq_some_iff.mp hrest
  have hread := eq_ok_of_toOption htree
  have hencode := eq_ok_of_toOption hbytes
  have hdecode := eq_ok_of_toOption hdecoded
  refine ⟨Registry.build_pairs, Json.ordered_nestedPair, tree, bytes, decoded, hread, hencode,
    hdecode, ?_⟩
  rw [toJson_of_decode Registry.build_pairs Json.ordered_nestedPair hread hencode hdecode]
  rfl

end Module

end SyntaxPack
