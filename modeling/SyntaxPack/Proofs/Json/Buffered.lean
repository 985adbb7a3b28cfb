import SyntaxPack.Proofs.Json.Offences
import SyntaxPack.Proofs.Monad
/-!
# SyntaxPack.Proofs.Json.Buffered

Documents that are read with one buffer.

`Tree.builder` is handed the place of every part of a document. Here the place is a text that is
changed in place: each step is appended to it, and cut off again by length once what the step leads
to is read. Nothing is cut off after an error, and an error shows the text as it is at that moment.

Reading a part that can be read leaves the text as it was (`ReadsAs.ok`), so the text is at every
moment that of the path. Hence the error of a document is that of its first object that cannot
become a shaped one, with the steps from the root to this object and no others.
-/

namespace SyntaxPack

namespace Tree

/-- What changes while a document is read. -/
structure Reading where
  /-- The text of the place that is read. -/
  place : String := "$"
  /-- The nodes built so far. -/
  nodes : Array Node := #[]

/-- Why a document is not read to its end. -/
inductive Refusal where
  /-- No value stands for what is at a place. -/
  | unsupported (place reason : String)
  | schema (e : SchemaError)
  /-- The text of the place was to be cut within a character. -/
  | broken

/-- What is said about an object without a string under the type key. -/
def untypedReason (typeKey : String) : String := s!"object without a string `{typeKey}` property"

namespace Reading

/-- A program that reads a part of a document. -/
abbrev Program (α : Type) := EStateM Refusal Reading α

/-- The first bytes of a text, unless they end within a character. -/
def cut? (text : String) (length : Nat) : Option String :=
  String.fromUTF8? (text.toByteArray.extract 0 length)

/-- Appends a step to the place. -/
def enter (step : Json.Step) : Program PUnit :=
  modify fun reading => { reading with place := reading.place ++ step.render }

/-- Cuts the place to a length. -/
def leave (length : Nat) : Program PUnit := do
  match cut? (← get).place length with
  | some place => modify fun reading => { reading with place := place }
  | none => throw .broken

/-- Reads what a step leads to. -/
def within {α : Type} (step : Json.Step) (read : Program α) : Program α := do
  let length := (← get).place.utf8ByteSize
  enter step
  let result ← read
  leave length
  return result

/-- Adds a node, and refers to it. -/
def addNode (reference : NodeId → Value) (node : Node) : Program Value := do
  let nodes := (← get).nodes
  modify fun reading => { reading with nodes := nodes.push node }
  return reference ⟨nodes.size⟩

/-- Reads the items of an array from the first to the last. -/
def readItems : Nat → List (Program Value) → Program (List Value)
  | _, [] => return []
  | index, read :: reads => do
    let value ← within (.item index) read
    let values ← readItems (index + 1) reads
    return value :: values

/-- Reads the properties of the given names, as far as there are any. -/
def readProperties (properties : List (String × Program Value)) :
    List String → Program (List (String × Value))
  | [] => return []
  | name :: names =>
    match properties.lookup name with
    | none => readProperties properties names
    | some read => do
      let value ← within (.property name) read
      let fields ← readProperties properties names
      return (name, value) :: fields

/-- Reads an object, given the text under the type key. -/
def readObject (registry : Registry) (typeName : Option String)
    (properties : List (String × Program Value)) : Program Value := do
  match typeName with
  | none => throw (.unsupported (← get).place (untypedReason registry.typeKey))
  | some shape =>
    match registry.require shape with
    | .error e => throw (.schema e)
    | .ok id =>
      let declared := (registry.fields id).map (·.name)
      let names := fieldOrder registry.typeKey declared (properties.map (·.1))
      let fields ← readProperties properties names
      addNode .object (.object (Object.ofFields shape fields))

mutual

/-- What reads a document. -/
def reader (registry : Registry) : Json → Program Value
  | .null => return .null
  | .boolean value => return .boolean value
  | .integer value => return .number (Double.ofInt value)
  | .float value => return .number value
  | .string value => return .string value
  | .array items => do
    let values ← readItems 0 (itemReaders registry items)
    addNode .array (.array values)
  | .object properties =>
    readObject registry (typeName? registry properties) (propertyReaders registry properties)

/-- What reads the items of an array. -/
def itemReaders (registry : Registry) : List Json → List (Program Value)
  | [] => []
  | item :: items => reader registry item :: itemReaders registry items

/-- What reads the properties of an object. -/
def propertyReaders (registry : Registry) : List (String × Json) → List (String × Program Value)
  | [] => []
  | (name, value) :: properties =>
    (name, reader registry value) :: propertyReaders registry properties

end

@[simp] theorem itemReaders_eq_map (registry : Registry) (items : List Json) :
    itemReaders registry items = items.map (reader registry) := by
  induction items with
  | nil => rfl
  | cons item items ih => simp [itemReaders, ih]

@[simp] theorem propertyReaders_eq_map (registry : Registry) (properties : List (String × Json)) :
    propertyReaders registry properties =
      properties.map fun property => (property.1, reader registry property.2) := by
  induction properties with
  | nil => rfl
  | cons property properties ih => simp [propertyReaders, ih]

/-- Reads the tree of a document, from its root on. -/
def readTree (registry : Registry) (json : Json) : Except Refusal Tree :=
  match reader registry json {} with
  | .ok root reading => .ok ⟨reading.nodes, root⟩
  | .error refusal _ => .error refusal

end Reading

end Tree

/-- The error as it shows where the place is kept as text. -/
def SchemaError.located : SchemaError → Tree.Refusal
  | untypedObject path typeKey => .unsupported path.render (Tree.untypedReason typeKey)
  | e => .schema e

namespace Tree

variable {α β : Type} {description : RegistryDescription} {registry : Registry} {json : Json}
  {items : List Json} {properties : Json.Properties} {path : Json.Path} {step : Json.Step}

namespace Reading

/-! ### The place

The buffer is a text, and what is known about it is that it renders a path. Entering a step appends
to both; leaving it cuts the text to the length from before, which is never within a character, for
the text up to there is the one that stood there before. -/

theorem render_append_step (path : Json.Path) (step : Json.Step) :
    Json.Path.render (path ++ [step]) = path.render ++ step.render := by
  simp [Json.Path.render, String.join_append, String.append_assoc]

/-- What was appended last is cut off again. -/
theorem cut?_append (text rest : String) : cut? (text ++ rest) text.utf8ByteSize = some text := by
  rw [cut?, String.toByteArray_append,
    ByteArray.extract_append_eq_left String.size_toByteArray.symm, String.fromUTF8?, dif_pos text.isValidUTF8]
  rfl

/-- Entering a step makes the text that of the longer path. -/
theorem run_enter (path : Json.Path) (step : Json.Step) (nodes : Array Node) :
    enter step ⟨path.render, nodes⟩ = .ok ⟨⟩ ⟨Json.Path.render (path ++ [step]), nodes⟩ := by
  rw [render_append_step]
  rfl

/-- Leaving a step makes the text that of the path again, by its length alone. -/
theorem run_leave (path : Json.Path) (step : Json.Step) (nodes : Array Node) :
    leave path.render.utf8ByteSize ⟨Json.Path.render (path ++ [step]), nodes⟩ =
      .ok ⟨⟩ ⟨path.render, nodes⟩ := by
  rw [render_append_step, leave, run_bind_of_ok run_get, cut?_append]
  rfl

/-! ### Reading in place

`ReadsAs` ties a program on the buffer to a function of the path, outcome by outcome. It is closed
under the forms that programs are made of: returning, refusing, adding a node, binding, and reading
behind a step. The last one is where the buffer grows and shrinks. -/

/-- What builds something at a place that is known. -/
abbrev Build (α : Type) := Array Node → Except SchemaError (α × Array Node)

/-- With the text of a path as the place, a program reads what is built at that path. Where it comes
to its end, the text is that of the path again. -/
structure ReadsAs (path : Json.Path) (read : Program α) (build : Build α) : Prop where
  ok : ∀ nodes result nodes', build nodes = .ok (result, nodes') →
    read ⟨path.render, nodes⟩ = .ok result ⟨path.render, nodes'⟩
  error : ∀ nodes e, build nodes = .error e →
    ∃ left, read ⟨path.render, nodes⟩ = .error e.located left

variable {read : Program α} {build build' : Build α} {more : α → Program β}
  {buildMore : α → Build β}

theorem readsAs_pure (path : Json.Path) (result : α) :
    ReadsAs path (return result) fun nodes => .ok (result, nodes) where
  ok nodes _ _ h := by
    obtain ⟨rfl, rfl⟩ := Prod.mk.inj (Except.ok.inj h)
    rfl
  error _ _ h := nomatch h

/-- A program that refuses right away leaves nothing to restore. -/
theorem readsAs_refused (e : SchemaError)
    (hread : ∀ nodes, read ⟨path.render, nodes⟩ = .error e.located ⟨path.render, nodes⟩)
    (hbuild : ∀ nodes, build nodes = .error e) : ReadsAs path read build where
  ok nodes _ _ h := by
    rw [hbuild] at h
    cases h
  error nodes _ h := by
    obtain rfl := Except.error.inj ((hbuild nodes).symm.trans h)
    exact ⟨_, hread nodes⟩

/-- A node is added where the program is. -/
theorem readsAs_addNode (path : Json.Path) (reference : NodeId → Value) (node : Node) :
    ReadsAs path (addNode reference node) fun nodes => .ok (pushAs reference node nodes) where
  ok nodes _ _ h := by
    obtain ⟨rfl, rfl⟩ := Prod.mk.inj (Except.ok.inj h)
    rfl
  error _ _ h := nomatch h

theorem ReadsAs.congr (h : ReadsAs path read build) (heq : ∀ nodes, build' nodes = build nodes) :
    ReadsAs path read build' :=
  funext heq ▸ h

/-- Programs one after another read what is built one after another, since the first one has
restored the place when the second one begins. -/
theorem ReadsAs.bind (h : ReadsAs path read build)
    (hmore : ∀ a, ReadsAs path (more a) (buildMore a)) :
    ReadsAs path (read >>= more) fun nodes => build nodes >>= fun p => buildMore p.1 p.2 where
  ok nodes result nodes' hbuild := by
    obtain ⟨first, hfirst, hrest⟩ := bind_eq_ok.mp hbuild
    rw [run_bind_of_ok (h.ok _ _ _ hfirst)]
    exact (hmore _).ok _ _ _ hrest
  error nodes e hbuild := by
    rcases bind_eq_error.mp hbuild with hfirst | ⟨first, hfirst, hrest⟩
    · obtain ⟨left, hleft⟩ := h.error _ _ hfirst
      exact ⟨left, run_bind_of_error hleft⟩
    · rw [run_bind_of_ok (h.ok _ _ _ hfirst)]
      exact (hmore _).error _ _ hrest

/-- What is behind a step is read at the place of the step, and the place is restored. -/
theorem ReadsAs.within (h : ReadsAs (path ++ [step]) read build) :
    ReadsAs path (within step read) build where
  ok nodes result nodes' hbuild := by
    rw [Reading.within, run_bind_of_ok run_get, run_bind_of_ok (run_enter path step nodes),
      run_bind_of_ok (h.ok nodes result nodes' hbuild), run_bind_of_ok (run_leave path step nodes')]
    rfl
  error nodes e hbuild := by
    obtain ⟨left, hrun⟩ := h.error nodes e hbuild
    refine ⟨left, ?_⟩
    rw [Reading.within, run_bind_of_ok run_get, run_bind_of_ok (run_enter path step nodes),
      run_bind_of_error hrun]

/-! ### Documents

Induction on documents: the items and the properties of a document are read alike at whatever path,
and `ReadsAs.within` brings them to the path of the document with one step more. -/

/-- A document is read as it is built, at whatever path. -/
def ReadsAlike (registry : Registry) (json : Json) : Prop :=
  ∀ path, ReadsAs path (reader registry json) (builder registry json path)

/-- Items are read one after another, each behind the step of its own index. -/
theorem readsAs_items (index : Nat) (hitems : ∀ item ∈ items, ReadsAlike registry item) :
    ReadsAs path (readItems index (itemReaders registry items))
      (buildItems path index (itemBuilders registry items)) := by
  induction items generalizing index with
  | nil => exact readsAs_pure path []
  | cons item items ih =>
      exact (hitems item List.mem_cons_self _).within.bind fun value =>
        (ih (index + 1) fun other hother => hitems other (List.mem_cons_of_mem item hother)).bind
          fun values => readsAs_pure path (value :: values)

theorem lookup_propertyReaders (name : String) :
    (propertyReaders registry properties).lookup name =
      (properties.lookup name).map (reader registry) := by
  rw [propertyReaders_eq_map, lookup_map]

/-- Properties are read in the order in which their names are asked for, and not in that of the
document. -/
theorem readsAs_properties (path : Json.Path) (names : List String)
    (hproperties : ∀ property ∈ properties, ReadsAlike registry property.2) :
    ReadsAs path (readProperties (propertyReaders registry properties) names)
      (buildProperties path (propertyBuilders registry properties) names) := by
  induction names with
  | nil => exact readsAs_pure path []
  | cons name names ih =>
      rw [readProperties, lookup_propertyReaders]
      cases hlookup : properties.lookup name with
      | none =>
          refine ih.congr fun nodes => ?_
          rw [buildProperties, lookup_propertyBuilders, hlookup]
          rfl
      | some json =>
          have hproperty := hproperties _ (mem_of_lookup hlookup) (path ++ [.property name])
          refine (hproperty.within.bind fun value => ih.bind fun fields =>
            readsAs_pure path ((name, value) :: fields)).congr fun nodes => ?_
          rw [buildProperties, lookup_propertyBuilders, hlookup]
          rfl

/-- An object is read as it is built if this holds of its properties. -/
theorem readsAlike_object (hproperties : ∀ property ∈ properties, ReadsAlike registry property.2) :
    ReadsAlike registry (.object properties) := by
  intro path
  have hnames : (propertyReaders registry properties).map (·.1) =
      (propertyBuilders registry properties).map (·.1) := by
    simp
  rw [reader, builder]
  cases typeName? registry properties with
  | none => exact readsAs_refused (.untypedObject path registry.typeKey) (fun _ => rfl) fun _ => rfl
  | some name =>
      rw [readObject, hnames]
      cases hshape : registry.lookup name with
      | none =>
          have hrequire := Registry.require_of_lookup_eq_none hshape
          rw [hrequire]
          refine readsAs_refused (.unknownShape name) (fun _ => rfl) fun nodes => ?_
          rw [buildObject, hrequire, error_bind]
      | some id =>
          have hrequire := Registry.require_eq_ok.mpr hshape
          rw [hrequire]
          refine ((readsAs_properties path _ hproperties).bind fun fields =>
            readsAs_addNode path .object (.object (Object.ofFields name fields))).congr
              fun nodes => ?_
          rw [buildObject, hrequire, ok_bind]

/-- Whatever the document, it is read as it is built. -/
theorem readsAlike (json : Json) : ReadsAlike registry json := by
  induction json using Json.parts_induction with
  | null => exact fun path => readsAs_pure path _
  | boolean _ => exact fun path => readsAs_pure path _
  | integer _ => exact fun path => readsAs_pure path _
  | float _ => exact fun path => readsAs_pure path _
  | string _ => exact fun path => readsAs_pure path _
  | array items ih =>
      intro path
      rw [reader, builder]
      exact (readsAs_items 0 ih).bind fun values => readsAs_addNode path .array (.array values)
  | object properties ih => exact readsAlike_object ih

/-- Reading with one buffer comes to what building does. -/
theorem readTree_eq (registry : Registry) (json : Json) :
    readTree registry json = (ofJson registry json).mapError SchemaError.located := by
  have hreads : ReadsAs [] (reader registry json) (builder registry json []) := readsAlike json []
  rw [readTree, ofJson]
  cases hbuild : builder registry json [] #[] with
  | ok built =>
      have hread : reader registry json {} = .ok built.1 ⟨Json.Path.render [], built.2⟩ :=
        hreads.ok #[] built.1 built.2 hbuild
      rw [hread]
      rfl
  | error e =>
      obtain ⟨left, hread⟩ := hreads.error #[] e hbuild
      have hread : reader registry json {} = .error e.located left := hread
      rw [hread]
      rfl

end Reading

/-! ### Documents that are refused

Of a document that cannot be read, the first offence is what is said about it. That it is the first
is a fact about documents (`Json.FirstOffence`), that it is shown at its place one about the
buffer. -/

/-- What reading a document comes to. -/
structure Located (registry : Registry) (json : Json) : Prop where
  /-- It has a tree if and only if the text under the type key of each object in it is the name of a
  registered shape. -/
  ok_iff : (∃ tree, ofJson registry json = .ok tree) ↔ Json.Clean registry json
  /-- Otherwise the error is that of the first object of which this does not hold. -/
  error_iff : ∀ e, ofJson registry json = .error e ↔
    ∃ path fault, Json.FirstOffence registry json path fault ∧ e = fault path
  /-- Reading with one buffer for the place comes to the same. -/
  buffered : Reading.readTree registry json = (ofJson registry json).mapError SchemaError.located
  /-- So where that object has no string under the type key, the text in the buffer is then the root
  and the steps from there to the object. -/
  place_iff : ∀ place reason, Reading.readTree registry json = .error (.unsupported place reason) ↔
    ∃ path, Json.FirstOffence registry json path (.untypedObject · registry.typeKey) ∧
      place = "$" ++ String.join (path.map Json.Step.render) ∧
      reason = untypedReason registry.typeKey

/-- Reading a document fails if and only if an object in it cannot become a shaped one, and shows
where the first such object is. -/
theorem located_ofJson (hregistry : description.build = .ok registry) (hordered : json.Ordered) :
    Located registry json := by
  have houtcome := Json.outcome_ofJson hregistry hordered
  refine ⟨houtcome.ok_iff, fun e => houtcome.error_iff, Reading.readTree_eq registry json,
    fun place reason => ?_⟩
  rw [Reading.readTree_eq, mapError_eq_error]
  constructor
  · rintro ⟨e, he, hlocated⟩
    obtain ⟨path, fault, hfirst, rfl⟩ := houtcome.error_iff.mp he
    obtain ⟨value, -, hoffence⟩ := hfirst.offends
    cases hoffence with
    | untyped =>
        obtain ⟨rfl, rfl⟩ := Refusal.unsupported.inj hlocated
        exact ⟨path, hfirst, rfl, rfl⟩
    | unknown => cases hlocated
  · rintro ⟨path, hfirst, rfl, rfl⟩
    exact ⟨_, houtcome.error_iff.mpr ⟨path, _, hfirst, rfl⟩, rfl⟩

end Tree

/-- A pair with two objects without a type: an undeclared property, and the second item of a
declared one, which is read first. -/
def Json.strayObjects : Json :=
  .object [("also", .object []),
    ("next", .array [.object [("type", .string "Pair")], .object [("left", .integer 3)]]),
    ("type", .string "Pair")]

theorem Json.ordered_strayObjects : Json.strayObjects.Ordered := by
  have htyped : (Json.object [("type", .string "Pair")]).Ordered :=
    .object (by decide) (by simp [Ordered.string])
  have huntyped : (Json.object [("left", .integer 3)]).Ordered :=
    .object (by decide) (by simp [Ordered.integer])
  have hempty : (Json.object []).Ordered := .object (by decide) (by simp)
  have hitems : (Json.array [.object [("type", .string "Pair")],
    .object [("left", .integer 3)]]).Ordered := .array (by simp [htyped, huntyped])
  exact .object (by decide) (by simp [hempty, hitems, Ordered.string])

namespace Tree

/-- The second item is shown. -/
theorem located_strayObjects : RegistryDescription.pairs.build = .ok .pairs ∧
    Json.strayObjects.Ordered ∧ Located .pairs .strayObjects ∧
    Reading.readTree .pairs .strayObjects =
      .error (.unsupported "$.next[1]" "object without a string `type` property") ∧
    ∃ path fault, Json.FirstOffence .pairs .strayObjects path fault ∧
      fault path = .untypedObject [.property "next", .item 1] "type" := by
  have hlocated := located_ofJson Registry.build_pairs Json.ordered_strayObjects
  have herror : ofJson .pairs .strayObjects =
      .error (.untypedObject [.property "next", .item 1] "type") := by rfl
  obtain ⟨path, fault, hfirst, heq⟩ := (hlocated.error_iff _).mp herror
  refine ⟨Registry.build_pairs, Json.ordered_strayObjects, hlocated, ?_, path, fault, hfirst,
    heq.symm⟩
  rw [hlocated.buffered, herror]
  rfl

end Tree

end SyntaxPack
