import SyntaxPack.Proofs.Codec
import SyntaxPack.Proofs.Decode.Setup
import SyntaxPack.Proofs.Tree.Conforms
/-!
# SyntaxPack.Proofs.Decode.Soundness

What is decoded conforms to the registry, whatever the bytes.

Objects are set up without their shapes, references may lead forward, and references
into a shared table are checked only at the end. So while sections are read, a value
cannot be known to have the declared type; it is known to have it *if what has been
promised holds* (`Fits`): an object under a shape is in a table of that shape, stands
in place with that shape, or is recorded to be checked. `Sound` says that everything
read so far is sound in this sense. It is kept by every slot, entry and array, and at
the end the promises are kept: every table is filled, and the check of the recorded
references has passed.

The way there follows the decoder. Every function that reads has one lemma that says how it keeps
`Sound`, and the lemmas are put together as the functions are: slots (`slot_sound`), the fields of
an object (`fieldsWithin_sound`, by induction on the depth of objects in place), entries of a table,
tables, arrays, and all sections (`readSections_sound`). None of them opens a function; the steps
come from `Decode.Setup` and `Decode.Slots`, which say what a successful read has done. Only at the
very end, in `Finished.conforms`, do the promises turn into facts about the tree.
-/

namespace SyntaxPack

namespace Module

open DecodeState (Took Advance Pays)

namespace DecodeInput

variable (input : DecodeInput)

/-! ### Promises

What the bytes say about a value before all of the tree is there. The arena has three parts: the
objects of the tables up to `firstArray`, the arrays up to `tableEnd`, and behind them the objects
in place, which are added while slots are read. The first two parts have their size from the start
and are filled from left to right; a reference into them can therefore be checked for its range at
once, but not for the shape of what it leads to. -/

/-- Where the objects in place start. -/
def tableEnd : Nat := input.firstArray + input.arrayCount

/-- An object of a table, whose place may still be empty, or an object in place, which is there
already. References lead to nothing else. -/
def IsObject (s : DecodeState) (id : NodeId) : Prop :=
  id.index < input.firstArray ∨ input.tableEnd ≤ id.index ∧ id.index < s.nodes.size

/-- An array of the table. -/
def IsArray (id : NodeId) : Prop := input.firstArray ≤ id.index ∧ id.index < input.tableEnd

/-- An object has a shape, or will have it, or is going to be checked for it. The three cases are
the three ways in which a decoder makes sure of a shape: a partitioned table has one shape for all
of its entries; an object in place was read with its shape; and a reference into a shared table is
noted down, to be checked when all objects have been read. -/
inductive Promised (s : DecodeState) (shape : ShapeId) (id : NodeId) : Prop
  | table (slots : ObjectSlots) (mem : slots ∈ input.tables) (shape_eq : slots.shape = some shape)
      (first_le : slots.first ≤ id.index) (lt : id.index < slots.first + slots.count)
  | inPlace (object : Object) (le : input.tableEnd ≤ id.index)
      (node : s.nodes[id.index]? = some (.object object))
      (shape_eq : object.shape = input.registry.shapeName shape)
  | recorded (index : Nat) (mem : ⟨id, shape, index⟩ ∈ s.shapeRefs)

/-- A value whose runtime tag is among the accepted ones, if what is promised holds. For every
value but an object this can be told from the value alone. An object fits if objects of all shapes
are accepted, or if it is promised to have a shape that is. -/
def Fits (s : DecodeState) (accepts : Tag → Bool) : Value → Prop
  | .null => accepts (.builtin .null) = true
  | .boolean true => accepts (.builtin .trueValue) = true
  | .boolean false => accepts (.builtin .falseValue) = true
  | .number d => accepts (.ofNumber d) = true
  | .string _ => accepts (.builtin .string) = true
  | .array id => accepts (.builtin .array) = true ∧ input.IsArray id
  | .object id => input.IsObject s id ∧ ((∀ shape, accepts (.shape shape) = true) ∨
      ∃ shape, shape.index < input.registry.shapes.length ∧ accepts (.shape shape) = true ∧
        input.Promised s shape id)

/-- An object with the declared fields of a shape, in their order and each of them once, with values
that fit the declared types. -/
def Complete (s : DecodeState) (shape : ShapeId) (object : Object) : Prop :=
  shape.index < input.registry.shapes.length ∧ ∃ values,
    object = Object.ofFields (input.registry.shapeName shape)
      (((input.registry.fields shape).map (·.name)).zip values) ∧
    List.Forall₂ (fun field value => input.Fits s field.type.accepts value)
      (input.registry.fields shape) values

/-- The node at a position is a complete object, of the shape of its table if the table
has one. -/
def ObjectAt (s : DecodeState) (p : Nat) : Prop :=
  ∃ shape object, s.nodes[p]? = some (.object object) ∧ input.Complete s shape object ∧
    ∀ slots ∈ input.tables, slots.first ≤ p → p < slots.first + slots.count →
      slots.shape = none ∨ slots.shape = some shape

/-- The node at a position is an array with elements that fit, of a length in 32 bits. Arrays that
have not been read yet satisfy this too, since their places start out as empty arrays. -/
def ArrayAt (s : DecodeState) (p : Nat) : Prop :=
  ∃ elements, s.nodes[p]? = some (.array elements) ∧ elements.length < UInt32.size ∧
    ∀ value ∈ elements, input.Fits s (fun _ => true) value

/-- All that has been read is sound: the objects of the tables up to position `filled`, the objects
in place and the arrays. This is the invariant of decoding. `filled` is the one part of it that
moves: it goes from zero to `firstArray` as the tables are read, an entry at a time, and nothing is
said of the places from there on. -/
structure Sound (filled : Nat) (s : DecodeState) : Prop where
  filled_le : filled ≤ input.firstArray
  size : input.tableEnd ≤ s.nodes.size
  objects : ∀ p, p < filled ∨ input.tableEnd ≤ p ∧ p < s.nodes.size → input.ObjectAt s p
  arrays : ∀ p, input.firstArray ≤ p → p < input.tableEnd → input.ArrayAt s p

/-! ### Promises are kept up

All of the above depends on the state, and the state changes with every byte. It never changes in
a way that matters to a promise, though: nodes in place stay as they are, and what is to be checked
stays on the list. `Upholds` says just that much, so that the lemmas about promises need not know
which step has been taken. -/

variable {input} {s t : DecodeState}

/-- From `s` to `t` no promise is taken back: there are no fewer nodes, those in place are the same,
and all shapes that were to be checked still are. -/
structure Upholds (input : DecodeInput) (s t : DecodeState) : Prop where
  size : s.nodes.size ≤ t.nodes.size
  inPlace : ∀ p, input.tableEnd ≤ p → p < s.nodes.size → t.nodes[p]? = s.nodes[p]?
  shapeRefs : ∀ ref ∈ s.shapeRefs, ref ∈ t.shapeRefs

/-- Whatever a read does to a state, it adds to the nodes and to the list of checks. -/
theorem upholds_of_advance (h : s.Advance t) : Upholds input s t :=
  ⟨h.size_le, fun _ _ hp => h.getElem?_eq hp, fun _ href => h.shapeRefs.subset href⟩

theorem IsObject.later {id : NodeId} (h : input.IsObject s id) (hk : Upholds input s t) :
    input.IsObject t id :=
  h.imp_right fun ⟨hle, hlt⟩ => ⟨hle, Nat.lt_of_lt_of_le hlt hk.size⟩

theorem Promised.later {shape : ShapeId} {id : NodeId} (h : input.Promised s shape id)
    (hk : Upholds input s t) : input.Promised t shape id := by
  cases h with
  | table slots mem shape_eq first_le lt => exact .table slots mem shape_eq first_le lt
  | inPlace object le node shape_eq =>
      have hlt := (Array.getElem?_eq_some_iff.mp node).1
      exact .inPlace object le ((hk.inPlace id.index le hlt).trans node) shape_eq
  | recorded index mem => exact .recorded index (hk.shapeRefs _ mem)

theorem Fits.later {accepts : Tag → Bool} {value : Value} (h : input.Fits s accepts value)
    (hk : Upholds input s t) : input.Fits t accepts value := by
  match value, h with
  | .null, h | .boolean true, h | .boolean false, h | .number _, h | .string _, h
  | .array _, h => exact h
  | .object id, ⟨hid, hall⟩ =>
      refine ⟨hid.later hk, hall.imp_right ?_⟩
      rintro ⟨shape, hlt, haccepts, hpromised⟩
      exact ⟨shape, hlt, haccepts, hpromised.later hk⟩

/-- What fits some tags fits more of them. -/
theorem Fits.mono {accepts accepts' : Tag → Bool} {value : Value}
    (h : input.Fits s accepts value) (himp : ∀ t, accepts t = true → accepts' t = true) :
    input.Fits s accepts' value := by
  match value, h with
  | .null, h | .boolean true, h | .boolean false, h | .number _, h | .string _, h =>
      exact himp _ h
  | .array _, h => exact ⟨himp _ h.1, h.2⟩
  | .object id, ⟨hid, hall⟩ =>
      refine ⟨hid, hall.imp (fun h shape => himp _ (h shape)) ?_⟩
      rintro ⟨shape, hlt, haccepts, hpromised⟩
      exact ⟨shape, hlt, himp _ haccepts, hpromised⟩

theorem Complete.later {shape : ShapeId} {object : Object} (h : input.Complete s shape object)
    (hk : Upholds input s t) : input.Complete t shape object := by
  obtain ⟨hlt, values, hobject, hfits⟩ := h
  exact ⟨hlt, values, hobject, hfits.imp fun _ _ hfit => hfit.later hk⟩

theorem ObjectAt.later {p : Nat} (h : input.ObjectAt s p) (hk : Upholds input s t)
    (hp : t.nodes[p]? = s.nodes[p]?) : input.ObjectAt t p := by
  obtain ⟨shape, object, hnode, hcomplete, htables⟩ := h
  exact ⟨shape, object, hp.trans hnode, hcomplete.later hk, htables⟩

theorem ArrayAt.later {p : Nat} (h : input.ArrayAt s p) (hk : Upholds input s t)
    (hp : t.nodes[p]? = s.nodes[p]?) : input.ArrayAt t p := by
  obtain ⟨elements, hnode, hlength, hfits⟩ := h
  exact ⟨elements, hp.trans hnode, hlength, fun value hvalue => (hfits value hvalue).later hk⟩

/-- What is sound stays sound while nodes are added that are sound themselves. -/
theorem Sound.later {filled : Nat} (h : input.Sound filled s) (hk : Upholds input s t)
    (hsame : ∀ p < s.nodes.size, t.nodes[p]? = s.nodes[p]?)
    (hnew : ∀ p, s.nodes.size ≤ p → p < t.nodes.size → input.ObjectAt t p) :
    input.Sound filled t where
  filled_le := h.filled_le
  size := Nat.le_trans h.size hk.size
  objects p hp := by
    have hle := h.filled_le
    have hsize := h.size
    -- A position is old, and then its node has not changed, or it is that of a new node.
    rcases Nat.lt_or_ge p s.nodes.size with hlt | hge
    · exact (h.objects p (hp.imp_right fun hp => ⟨hp.1, hlt⟩)).later hk (hsame p hlt)
    · refine hnew p hge ?_
      simp only [tableEnd] at hsize
      omega
  arrays p hfirst hend := by
    have hsize := h.size
    exact (h.arrays p hfirst hend).later hk (hsame p (by omega))

/-- Reading bytes alone, without adding a node, changes nothing that `Sound` speaks of. -/
theorem Sound.took {filled n : Nat} (h : input.Sound filled s) (ht : Took n s t) :
    input.Sound filled t :=
  h.later (upholds_of_advance ht.advance) (fun _ hp => ht.advance.getElem?_eq hp) fun p hge hlt => by
    rw [ht.nodes] at hlt
    omega

/-! ### Slots

A slot is sound if its value fits what the codec accepts and everything read so far is still
sound afterwards. The second part is not obvious, as a slot may hold an object in place, with slots
of its own. How the fields of such an object are read is therefore a parameter of the lemmas, with
`FieldsSound` as what they ask of it, and the recursion is closed once, in `fieldsWithin_sound`. -/

/-- Reading the fields of an object is sound: it keeps what has been read sound, for as many entries
as are filled at that point, and gives a complete object of the shape. This is asked of the reader
of fields that slots are given, and proved of the one that they are given in the end. -/
def FieldsSound (input : DecodeInput) (readFields : ShapeId → Decode Object) : Prop :=
  ∀ (filled : Nat) (shape : ShapeId) (s : DecodeState) (object : Object) (t : DecodeState),
    .shape shape ∈ input.tags → s.source.Ascending → input.Sound filled s →
    readFields shape s = .ok object t → input.Sound filled t ∧ input.Complete t shape object

theorem shape_ofFields (shape : String) (fields : List (String × Value)) :
    (Object.ofFields shape fields).shape = shape := by
  suffices ∀ (object : Object),
      (fields.foldl (fun object entry => object.set entry.1 entry.2) object).shape =
        object.shape from this ⟨shape, []⟩
  induction fields with
  | nil => intro object; rfl
  | cons entry fields ih => intro object; exact ih _

theorem Complete.shape_eq {shape : ShapeId} {object : Object} (h : input.Complete s shape object) :
    object.shape = input.registry.shapeName shape := by
  obtain ⟨-, values, rfl, -⟩ := h
  exact shape_ofFields _ _

/-- An index that is in range is that of an entry of a table, which is one for the
shape if tables are partitioned. -/
theorem slotsFor_mem {expected : Option ShapeId} {index : Nat}
    (h : index < (input.slotsFor expected).count) : input.slotsFor expected ∈ input.tables ∧
      ∀ shape, expected = some shape → input.wire.partitionedTables = true →
        (input.slotsFor expected).shape = some shape := by
  cases hfound : input.tableFor expected with
  | none => simp [slotsFor, hfound] at h
  | some slots =>
      have hslots : input.slotsFor expected = slots := by simp [slotsFor, hfound]
      rw [hslots]
      cases expected with
      | none => exact ⟨List.mem_of_mem_head? hfound, by simp⟩
      | some shape =>
          cases hpartitioned : input.wire.partitionedTables with
          | false =>
              simp only [tableFor, hpartitioned, Bool.false_eq_true, if_false] at hfound
              exact ⟨List.mem_of_mem_head? hfound, by simp⟩
          | true =>
              simp only [tableFor, hpartitioned, if_true] at hfound
              refine ⟨List.mem_reverse.mp (List.mem_of_find?_eq_some hfound), ?_⟩
              intro shape' hshape _
              obtain rfl := Option.some.inj hshape
              simpa using List.find?_some hfound

/-- A reference to an object fits, as it is in range. Its shape is known from the table in which the
object will be, or is noted down to be checked. -/
theorem objectRef_sound {arena filled : Nat} {expected : Option ShapeId} {nullable : Bool}
    {index offset : Nat} {value : Value} (hin : input.InRange arena) (hs : s.source.Ascending)
    (hsound : input.Sound filled s)
    (hexpected : ∀ id, expected = some id → id.index < input.registry.shapes.length)
    (h : input.objectRef expected index offset s = .ok value t) :
    input.Sound filled t ∧ input.Fits t (Codec.fixed (slotTag expected) nullable).accepts value := by
  have hadvance := objectRef_advance hs h
  obtain ⟨hlt, rfl, rfl⟩ := objectRef_eq_ok.mp h
  obtain ⟨hmem, hshape⟩ := slotsFor_mem hlt
  have hbound := hin.tables _ hmem
  refine ⟨hsound.later (upholds_of_advance hadvance) (fun _ _ => rfl) fun p hge hp =>
    absurd hp (Nat.not_lt.mpr hge), Or.inl (by simp only; omega), ?_⟩
  cases expected with
  | none => exact Or.inl fun shape => by simp [Codec.accepts, slotTag, Tag.holds, Tag.isShape]
  | some shape =>
      refine Or.inr ⟨shape, hexpected shape rfl, by simp [Codec.accepts, slotTag, Tag.holds], ?_⟩
      -- Partitioned tables vouch for the shape. In a shared table it has to be checked later.
      cases hpartitioned : input.wire.partitionedTables with
      | true =>
          exact .table _ hmem (hshape shape rfl hpartitioned) (Nat.le_add_right _ _)
            (Nat.add_lt_add_left hlt _)
      | false =>
          refine .recorded index ?_
          simp [pendingRefs, hpartitioned]

/-- An object in place becomes a sound node. It is the last node at that point, so nothing that was
there before it is touched, and it is promised its own shape from then on. -/
theorem InPlace.sound {arena filled : Nat} {readFields : ShapeId → Decode Object}
    {expected : Option ShapeId} {nullable : Bool} {value : Value} {shape : ShapeId}
    {object : Object} {u v : DecodeState}
    (h : InPlace input readFields expected s t value shape object u v)
    (hin : input.InRange arena) (hsound : input.Sound filled s)
    (hfields : FieldsSound input readFields) :
    input.Sound filled t ∧ input.Fits t (Codec.fixed (slotTag expected) nullable).accepts value := by
  obtain ⟨hv, hcomplete⟩ := hfields filled shape u object v h.shape_mem h.marker.ascending
    (hsound.took h.marker) h.fields
  -- After the fields the object itself is added, behind all nodes that are there.
  have hnodes : t.nodes = v.nodes.push (.object object) := by rw [h.state_eq]
  have hsame : ∀ p < v.nodes.size, t.nodes[p]? = v.nodes[p]? := fun p hp => by
    rw [hnodes, Array.getElem?_push_lt hp, Array.getElem?_eq_getElem hp]
  have hlast : t.nodes[v.nodes.size]? = some (.object object) := by
    rw [hnodes, Array.getElem?_push_size]
  have hupholds : Upholds input v t :=
    ⟨by simp [hnodes], fun p _ hp => hsame p hp, fun _ href => by rwa [h.state_eq]⟩
  have hsize := hv.size
  constructor
  · refine hv.later hupholds hsame fun p hge hp => ?_
    obtain rfl : p = v.nodes.size := by
      rw [hnodes, Array.size_push] at hp
      omega
    refine ⟨shape, object, hlast, hcomplete.later hupholds, fun slots hslots _ hlt => ?_⟩
    have := hin.tables slots hslots
    simp only [tableEnd] at hsize
    omega
  · rw [h.value_eq]
    refine ⟨Or.inr ⟨hsize, by simp [hnodes]⟩, ?_⟩
    rcases h.expected_eq with rfl | rfl
    · exact Or.inl fun shape => by simp [Codec.accepts, slotTag, Tag.holds, Tag.isShape]
    · exact Or.inr ⟨shape, hcomplete.1, by simp [Codec.accepts, slotTag, Tag.holds],
        .inPlace object hsize hlast hcomplete.shape_eq⟩

/-- The slot of an object, of one shape or of any: it is null, a reference, or an object in place.
-/
theorem objectSlot_sound {arena filled : Nat} {readFields : ShapeId → Decode Object}
    {expected : Option ShapeId} {nullable : Bool} {value : Value} (hin : input.InRange arena)
    (hs : s.source.Ascending) (hsound : input.Sound filled s)
    (hfields : FieldsSound input readFields)
    (hexpected : ∀ id, expected = some id → id.index < input.registry.shapes.length)
    (h : input.objectSlot readFields expected nullable s = .ok value t) :
    input.Sound filled t ∧ input.Fits t (Codec.fixed (slotTag expected) nullable).accepts value := by
  rcases objectSlot_cases hs h with ⟨rfl, rfl, htook⟩ | ⟨index, offset, u, htook, href⟩ |
    ⟨shape, object, u, v, hplace⟩
  · exact ⟨hsound.took htook, by simp [Fits, Codec.accepts]⟩
  · exact objectRef_sound hin htook.ascending (hsound.took htook) hexpected href
  · exact hplace.sound hin hsound hfields

/-- A value that is neither an object nor tagged in its slot has the tag that it was read under. -/
theorem Plain.fits {tag : Tag} {nullable : Bool} {value : Value}
    (h : Plain input tag nullable value) :
    input.Fits s (Codec.fixed tag nullable).accepts value := by
  cases h with
  | integer nullable i hpayload =>
      have htag : Tag.ofNumber (.ofInt i) = .builtin .integer := by
        simp [Tag.ofNumber, Double.integerPayload_ofInt hpayload]
      simp [Fits, Codec.accepts, htag, Tag.holds]
  | double nullable d =>
      simp only [Fits, Codec.accepts, Tag.ofNumber]
      split <;> simp [Tag.holds]
  | array nullable index hindex =>
      refine ⟨by simp [Codec.accepts, Tag.holds], Nat.le_add_right _ _, ?_⟩
      simp only [tableEnd]
      omega
  | null | trueValue | falseValue | string | absentString | absentArray =>
      simp [Fits, Codec.accepts, Tag.holds]

/-- What is read under a tag fits that tag, or is null where null is allowed. -/
theorem underTag_sound {arena filled : Nat} {readFields : ShapeId → Decode Object} {tag : Tag}
    {nullable : Bool} {value : Value} (hin : input.InRange arena) (hs : s.source.Ascending)
    (hsound : input.Sound filled s) (hfields : FieldsSound input readFields)
    (htag : ∀ id, tag = .shape id → id.index < input.registry.shapes.length)
    (h : input.underTag readFields tag nullable s = .ok value t) :
    input.Sound filled t ∧ input.Fits t (Codec.fixed tag nullable).accepts value := by
  rcases underTag_cases hs h with ⟨hplain, htook⟩ | ⟨expected, rfl, hslot⟩
  · exact ⟨hsound.took htook, hplain.fits⟩
  · refine objectSlot_sound hin hs hsound hfields (fun id hid => htag id ?_) hslot
    rw [hid]
    rfl

/-- A slot holds a value that its layout has room for. -/
theorem slot_sound {arena filled : Nat} {readFields : ShapeId → Decode Object} {codec : Codec}
    {value : Value} (hin : input.InRange arena) (hs : s.source.Ascending)
    (hsound : input.Sound filled s) (hfields : FieldsSound input readFields)
    (hcodec : ∀ id ∈ codec.shapeIds, id.index < input.registry.shapes.length)
    (h : input.slot readFields codec s = .ok value t) :
    input.Sound filled t ∧ input.Fits t codec.accepts value := by
  -- A slot of several types has its tag in front of the value; a slot of one type has none.
  rcases slot_cases hs h with
    ⟨decl, tag, u, rfl, hmem, hterminal, haccepts, htook, hunder⟩ | ⟨tag, nullable, rfl, hunder⟩
  · obtain ⟨ht, hfits⟩ := underTag_sound hin htook.ascending (hsound.took htook) hfields
      (fun id hid => hin.tags id (hid ▸ hmem)) hunder
    refine ⟨ht, hfits.mono fun t ht => ?_⟩
    refine TypeDecl.accepts_of_holds hterminal haccepts ?_
    simpa [Codec.accepts] using ht
  · refine underTag_sound hin hs hsound hfields (fun id hid => hcodec id ?_) hunder
    rw [hid]
    exact List.mem_singleton_self id

/-- The fields of an object are read one slot after another. A value that fitted when it was read
still fits when the last field has been read, as no promise is taken back in between. -/
theorem fieldSlots_sound {arena : Nat} {readFields : ShapeId → Decode Object}
    (hin : input.InRange arena) (hfields : FieldsSound input readFields)
    (hadvances : Advances readFields) : FieldsSound input (input.fieldSlots readFields) := by
  intro filled shape s object t hmem hs hsound h
  obtain ⟨values, hvalues, rfl⟩ := fieldSlots_eq_ok.mp h
  -- The induction is on the fields that have been read; what carries it is that the values so far
  -- fit in the state so far.
  obtain ⟨-, ht, hfits⟩ := run_mapM_induction
    (motive := fun done values u => s.Advance u ∧ input.Sound filled u ∧
      List.Forall₂ (fun field value => input.Fits u field.type.accepts value) done values)
    hvalues ⟨.refl hs, hsound, .nil⟩ fun done values field value u v hfield hu hslot => by
      obtain ⟨hadvance, hu, hdone⟩ := hu
      have hv := slot_advance hadvance.ascending hadvances hslot
      have hupholds : Upholds input u v := upholds_of_advance hv
      obtain ⟨hvsound, hfit⟩ := slot_sound hin hadvance.ascending hu hfields
        (fun id hid => hin.declared shape field hfield id (Codec.shapeIds_ofDecl hid)) hslot
      have hfit' := hfit.mono fun t ht => (Codec.accepts_ofDecl field.type _ t) ▸ ht
      refine ⟨hadvance.trans hv, hvsound, ?_⟩
      exact List.rel_append (hdone.imp fun _ _ hfit => hfit.later hupholds)
        (.cons hfit' .nil)
  exact ⟨ht, hin.tags shape hmem, values, rfl, hfits⟩

/-- Down to any depth of objects in place, reading the fields of an object is sound. At depth zero
the decoder refuses to go on, and from there each level follows from the one below it. -/
theorem fieldsWithin_sound {arena : Nat} (hin : input.InRange arena) (depth : Nat) :
    FieldsSound input (input.fieldsWithin depth) := by
  induction depth with
  | zero =>
      intro filled shape s object t _ _ _ h
      obtain ⟨u, v, -, h₁⟩ := run_bind_eq_ok.mp h
      simp at h₁
  | succ depth ih => exact fieldSlots_sound hin ih (fieldsWithin_advances depth)

theorem objectFields_sound {arena : Nat} (hin : input.InRange arena) :
    FieldsSound input input.objectFields :=
  fieldsWithin_sound hin _

/-! ### Sections

The tables and the arrays fill places that have been there from the start. A place is filled
exactly once, when the entry for it has been read: for tables this moves `filled` on by one, and for
arrays it replaces an empty array by another one. -/

/-- Filling a place of the tables leaves the objects in place as they are. -/
theorem upholds_setNode {position : Nat} {node : Node} (h : position < input.tableEnd) :
    Upholds input s { s with nodes := s.nodes.setIfInBounds position node } where
  size := by simp
  inPlace p hle _ := Array.getElem?_setIfInBounds_ne (by omega)
  shapeRefs _ href := href

/-- An entry of an object table fills its place. The fields are read first, with the place still
empty, so they are sound up to that place; then the object is put there, and the tables are filled
one entry further. -/
theorem EntryRead.sound {arena : Nat} {slots : ObjectSlots} {index : Nat} {shape : ShapeId}
    {object : Object} {u v : DecodeState}
    (h : EntryRead input slots index s t shape object u v) (hin : input.InRange arena)
    (htables : Consecutive 0 input.tables input.firstArray) (hslots : slots ∈ input.tables)
    (hindex : index < slots.count) (hsound : input.Sound (slots.first + index) s) :
    input.Sound (slots.first + index + 1) t := by
  obtain ⟨hv, hcomplete⟩ := objectFields_sound hin _ shape u object v h.shape_mem h.tag.ascending
    (hsound.took h.tag) h.fields
  have hbound := hin.tables slots hslots
  have hsize := hv.size
  have hlt : slots.first + index < input.tableEnd := by
    simp only [tableEnd]
    omega
  have hupholds := @upholds_setNode input v (slots.first + index) (.object object) hlt
  rw [h.state_eq]
  -- One place has changed. It holds the new object, and at every other one all is as before.
  refine ⟨by omega, by simpa using hsize, fun p hp => ?_, fun p hfirst hend => ?_⟩
  · by_cases hplace : p = slots.first + index
    · subst hplace
      refine ⟨shape, object, Array.getElem?_setIfInBounds_self_of_lt (by omega),
        hcomplete.later hupholds, fun slots' hslots' hle hlt' => ?_⟩
      -- No two tables overlap, so the table around this place is the one that is being read.
      rw [htables.unique hslots' hslots hle hlt' (Nat.le_add_right _ _)
        (Nat.add_lt_add_left hindex _)]
      exact h.shape_eq
    · refine (hv.objects p ?_).later hupholds (Array.getElem?_setIfInBounds_ne (Ne.symm hplace))
      simp only [Array.size_setIfInBounds] at hp
      omega
  · exact (hv.arrays p hfirst hend).later hupholds (Array.getElem?_setIfInBounds_ne (by omega))

/-- A table is filled from its first place to its last. -/
theorem readTable_sound {arena : Nat} {slots : ObjectSlots} {r : Unit} (hin : input.InRange arena)
    (htables : Consecutive 0 input.tables input.firstArray) (hslots : slots ∈ input.tables)
    (hs : s.source.Ascending) (hsound : input.Sound slots.first s)
    (h : input.readTable slots s = .ok r t) : input.Sound (slots.first + slots.count) t := by
  obtain ⟨u, items, htook, hloop⟩ := readTable_eq_ok hs h
  obtain ⟨hlength, -, ht⟩ := Decode.replicate_induction
    (motive := fun done v => v.source.Ascending ∧ input.Sound (slots.first + done.length) v) hloop
    ⟨htook.ascending, hsound.took htook⟩ fun done v _ w hdone hv hstep => by
      obtain ⟨shape, object, x, y, hentry⟩ := readTableEntry_eq_ok hv.1 hstep
      refine ⟨hentry.pays.ascending, ?_⟩
      have := hentry.sound hin htables hslots hdone hv.2
      simpa [Nat.add_assoc] using this
  rwa [hlength] at ht

/-- An array fills its place. Its elements are read one after another, as the fields of an object
are, but under one codec: the element tag that stands in front of them. -/
theorem readArray_sound {arena index : Nat} {r : Unit} (hin : input.InRange arena)
    (hs : s.source.Ascending) (hsound : input.Sound input.firstArray s)
    (hindex : index < input.arrayCount) (h : input.readArray index s = .ok r t) :
    input.Sound input.firstArray t := by
  obtain ⟨length, elements, u, v, htook, hlength, helements, rfl⟩ := readArray_eq_ok hs h
  have hu := hsound.took htook
  -- First the elements, with the place of the array still empty.
  have hv : elements.length = length ∧ input.Sound input.firstArray v ∧
      ∀ value ∈ elements, input.Fits v (fun _ => true) value := by
    rcases readElements_eq_ok htook.ascending helements with
      ⟨rfl, rfl, rfl⟩ | ⟨tag, w, hmem, htook', hloop⟩
    · exact ⟨rfl, hu, by simp⟩
    · obtain ⟨hcount, -, hv, hfits⟩ := Decode.replicate_induction
        (motive := fun done x => x.source.Ascending ∧ input.Sound input.firstArray x ∧
          ∀ value ∈ done, input.Fits x (fun _ => true) value) hloop
        ⟨htook'.ascending, hu.took htook', by simp⟩ fun done x value y _ hx hslot => by
          obtain ⟨hasc, hxsound, hdone⟩ := hx
          have hy := slot_advance hasc objectFields_advances hslot
          obtain ⟨hysound, hfit⟩ := slot_sound hin hasc hxsound (objectFields_sound hin)
            (fun id hid => hin.tags id (Codec.shapeIds_ofElement hid ▸ hmem)) hslot
          refine ⟨hy.ascending, hysound, fun other hother => ?_⟩
          rcases List.mem_append.mp hother with hother | hother
          · exact (hdone other hother).later (upholds_of_advance hy)
          · obtain rfl := List.mem_singleton.mp hother
            exact hfit.mono fun _ _ => rfl
      exact ⟨hcount, hv, hfits⟩
  -- Then the array is put in its place, which leaves all others as they are.
  obtain ⟨hcount, hvsound, hfits⟩ := hv
  have hsize := hvsound.size
  have hplace : input.firstArray + index < input.tableEnd := by
    simp only [tableEnd]
    omega
  have hupholds := @upholds_setNode input v (input.firstArray + index) (.array elements) hplace
  refine ⟨Nat.le_refl _, by simpa using hsize, fun p hp => ?_, fun p hfirst hend => ?_⟩
  · refine (hvsound.objects p (by simpa using hp)).later hupholds
      (Array.getElem?_setIfInBounds_ne ?_)
    omega
  · by_cases heq : p = input.firstArray + index
    · subst heq
      exact ⟨elements, Array.getElem?_setIfInBounds_self_of_lt (by omega), hcount ▸ hlength,
        fun value hvalue => (hfits value hvalue).later hupholds⟩
    · exact (hvsound.arrays p hfirst hend).later hupholds
        (Array.getElem?_setIfInBounds_ne (Ne.symm heq))

/-- All arrays are filled. By then all tables are, so nothing moves but the arrays themselves. -/
theorem readArrays_sound {arena : Nat} {r : Unit} (hin : input.InRange arena)
    (hs : s.source.Ascending) (hsound : input.Sound input.firstArray s)
    (h : input.readArrays s = .ok r t) : input.Sound input.firstArray t := by
  obtain ⟨u, items, htook, hloop⟩ := readArrays_eq_ok hs h
  exact (Decode.replicate_induction
    (motive := fun _ v => v.source.Ascending ∧ input.Sound input.firstArray v) hloop
    ⟨htook.ascending, hsound.took htook⟩ fun done v _ w hdone hv hstep =>
      ⟨(readArray_pays hv.1 hstep).ascending,
        readArray_sound hin hv.1 hv.2 hdone hstep⟩).2.2

/-- The root and all nodes fit once all sections are read. The sections come one after another, and
each of them starts from what the ones before it have left sound: the streams add no node, the
tables are filled in the order of their places, then the arrays, and last comes the root. -/
theorem readSections_sound {arena : Nat} {root : Value} (hin : input.InRange arena)
    (htables : Consecutive 0 input.tables input.firstArray) (hs : s.source.Ascending)
    (hsound : input.Sound 0 s) (h : input.readSections s = .ok root t) :
    t.source.Ascending ∧ input.Sound input.firstArray t ∧
      input.Fits t (fun _ => true) root := by
  obtain ⟨u, v, w, hstreams, htable, harrays, hroot, -⟩ := readSections_eq_ok h
  have hu := readStreams_eq_ok hs hstreams
  have husound : input.Sound 0 u := by
    refine hsound.later ⟨hu.pays.size, fun p _ _ => by rw [hu.nodes], fun ref href => ?_⟩
      (fun p _ => by rw [hu.nodes]) fun p hge hlt => ?_
    · rwa [hu.shapeRefs]
    · rw [hu.nodes] at hlt
      omega
  -- Entering a section only changes where the next byte is read from.
  have hsection : ∀ {x y : DecodeState} {filled : Nat} {input' body : Reader},
      x.source.Ascending → input.Sound filled x → Read.substream x.input = .ok body input' →
      y = { x with input := input', source := { x.source with body := body } } →
      y.source.Ascending ∧ input.Sound filled y := by
    rintro x _ filled input' body hx hxsound hread rfl
    refine ⟨(pays_section hx hread).ascending, hxsound.later ⟨Nat.le_refl _, fun _ _ _ => rfl,
      fun _ href => href⟩ (fun _ _ => rfl) fun p hge hlt => absurd hlt (Nat.not_lt.mpr hge)⟩
  -- The tables are filled one after another: after some of them, all places up to the sum of
  -- their counts are.
  obtain ⟨hvascending, hvsound⟩ := run_forM_induction
    (motive := fun (done : List ObjectSlots) x => x.source.Ascending ∧
      input.Sound (done.map ObjectSlots.count).sum x) htable ⟨hu.pays.ascending, husound⟩
    fun done slots rest x y hsplit hx hstep => by
      obtain ⟨body, rest', hread, hrun, -⟩ := Decode.inSection_eq_ok.mp hstep
      obtain ⟨hascending, hstart⟩ := hsection hx.1 hx.2 hread rfl
      -- the tables before this one end where it starts
      have hfirst : slots.first = (done.map ObjectSlots.count).sum := by
        obtain ⟨middle, hdone, hrest⟩ := (hsplit ▸ htables).append
        rw [hrest.1, ← hdone.sum_eq, Nat.zero_add]
      have hmem : slots ∈ input.tables := by simp [hsplit]
      refine ⟨(readTable_pays hascending hrun).ascending, ?_⟩
      have := readTable_sound hin htables hmem hascending (hfirst ▸ hstart) hrun
      simpa [hfirst] using this
  have hsum : (input.tables.map ObjectSlots.count).sum = input.firstArray := by
    simpa using htables.sum_eq
  rw [hsum] at hvsound
  obtain ⟨body, rest, hread, hrun, -⟩ := Decode.inSection_eq_ok.mp harrays
  obtain ⟨hascending, hstart⟩ := hsection hvascending hvsound hread rfl
  have hwsound := readArrays_sound hin hascending hstart hrun
  obtain ⟨body', rest', hread', hslot, -⟩ := Decode.inSection_eq_ok.mp hroot
  obtain ⟨hascending', hstart'⟩ :=
    hsection (readArrays_pays hascending hrun).ascending hwsound hread' rfl
  obtain ⟨ht, hfits⟩ := slot_sound hin hascending' hstart' (objectFields_sound hin)
    (by simp [Codec.shapeIds, TypeDecl.shapeIds]) hslot
  exact ⟨(slot_advance hascending' objectFields_advances hslot).ascending, ht,
    hfits.mono fun _ _ => rfl⟩

/-! ### Promises are kept

When a decoder returns a tree, three things have been done that were open while it read: all
tables are filled, all references on the list have been checked, and the tree has no cycle. With
these every promise becomes a fact, so what was known to fit is now known to have its tag. -/

/-- Before the sections are read, nothing but empty arrays is there: no table has been filled, and
there is no object in place. This is where the induction over the sections starts. -/
theorem sound_of_setUp {registry : Registry} {bytes : List UInt8}
    (h : SetUp registry bytes input s) : input.Sound 0 s := by
  obtain ⟨hentries, hsize⟩ := h.tableEntries_eq
  refine ⟨Nat.zero_le _, Nat.le_of_eq hsize.symm, fun p hp => ?_, fun p hfirst hend => ?_⟩
  · simp only [tableEnd] at hp
    omega
  · obtain ⟨i, rfl⟩ := Nat.exists_eq_add_of_le hfirst
    refine ⟨[], ?_, by decide, by simp⟩
    rw [h.nodes, ← hentries, tableEntries]
    refine getElem?_blankNodes ?_
    simp only [tableEnd] at hend
    omega

/-- All tables are filled and every recorded reference has been checked. -/
structure Finished (input : DecodeInput) (t : DecodeState) (tree : Tree) : Prop where
  valid : input.registry.Valid
  nodes : tree.nodes = t.nodes
  sound : input.Sound input.firstArray t
  checked : ∀ ref ∈ t.shapeRefs, checkShapeRef input.registry tree ref = .ok ()

variable {tree : Tree}

/-- Every position of the arena is that of a complete object or of an array whose elements fit. No
place is left over that was set up and never filled. -/
theorem Finished.node_cases (h : Finished input t tree) {id : NodeId} {node : Node}
    (hnode : tree.node? id = some node) :
    (∃ shape object, node = .object object ∧ input.Complete t shape object) ∨
      (∃ elements, node = .array elements ∧ elements.length < UInt32.size ∧
        ∀ value ∈ elements, input.Fits t (fun _ => true) value) := by
  have hlt := (Array.getElem?_eq_some_iff.mp hnode).1
  rw [h.nodes] at hlt
  rw [Tree.node?, h.nodes] at hnode
  by_cases harray : input.firstArray ≤ id.index ∧ id.index < input.tableEnd
  · obtain ⟨elements, hfound, hlength, hfits⟩ := h.sound.arrays id.index harray.1 harray.2
    rw [hnode, Option.some.injEq] at hfound
    exact Or.inr ⟨elements, hfound, hlength, hfits⟩
  · obtain ⟨shape, object, hfound, hcomplete, -⟩ := h.sound.objects id.index (by omega)
    rw [hnode, Option.some.injEq] at hfound
    exact Or.inl ⟨shape, object, hfound, hcomplete⟩

/-- A promised object is there, complete and of a registered shape. -/
theorem Finished.object (h : Finished input t tree) {id : NodeId} (hid : input.IsObject t id) :
    ∃ shape object, tree.object? id = some object ∧ input.Complete t shape object ∧
      ∀ slots ∈ input.tables, slots.first ≤ id.index → id.index < slots.first + slots.count →
        slots.shape = none ∨ slots.shape = some shape := by
  obtain ⟨shape, object, hnode, hcomplete, htables⟩ := h.sound.objects id.index hid
  refine ⟨shape, object, ?_, hcomplete, htables⟩
  rw [← h.nodes] at hnode
  simp [Tree.object?, Tree.node?, hnode]

/-- What is promised of an object holds. Each of the three promises is kept for a reason of its own:
the table of the object is filled with objects of its shape, the object was in place with it, or the
check has passed. -/
theorem Finished.shape_eq (h : Finished input t tree) {id : NodeId} {shape : ShapeId}
    {object : Object} (hid : input.IsObject t id) (hlt : shape.index < input.registry.shapes.length)
    (hobject : tree.object? id = some object) (hpromised : input.Promised t shape id) :
    object.shape = input.registry.shapeName shape := by
  obtain ⟨found, object', hobject', hcomplete, htables⟩ := h.object hid
  obtain rfl : object' = object := Option.some.inj (hobject' ▸ hobject)
  cases hpromised with
  | table slots mem shape_eq first_le lt =>
      rcases htables slots mem first_le lt with hnone | hsome
      · simp [hnone] at shape_eq
      · obtain rfl : found = shape := Option.some.inj (hsome ▸ shape_eq)
        exact hcomplete.shape_eq
  | inPlace object'' le node shape_eq =>
      rw [← h.nodes] at node
      have : tree.object? id = some object'' := by simp [Tree.object?, Tree.node?, node]
      rw [hobject', Option.some.injEq] at this
      exact this ▸ shape_eq
  | recorded index mem =>
      have hcheck := h.checked _ mem
      simp only [checkShapeRef, hobject', Option.elim_some] at hcheck
      split at hcheck
      · assumption
      · simp at hcheck

/-- Every value has a runtime tag that is accepted where it stands. -/
theorem Finished.tag_of_fits (h : Finished input t tree) {accepts : Tag → Bool} {value : Value}
    (hfits : input.Fits t accepts value) :
    ∃ tag, Tag.of tree input.registry value = .ok tag ∧ accepts tag = true := by
  match value, hfits with
  | .null, hfits => exact ⟨_, rfl, hfits⟩
  | .boolean true, hfits => exact ⟨_, rfl, hfits⟩
  | .boolean false, hfits => exact ⟨_, rfl, hfits⟩
  | .number d, hfits => exact ⟨_, rfl, hfits⟩
  | .string _, hfits => exact ⟨_, rfl, hfits⟩
  | .array _, hfits => exact ⟨_, rfl, hfits.1⟩
  | .object id, ⟨hid, hall⟩ =>
      obtain ⟨shape, object, hobject, hcomplete, -⟩ := h.object hid
      have htag : ∀ expected, expected.index < input.registry.shapes.length →
          object.shape = input.registry.shapeName expected →
          Tag.of tree input.registry (.object id) = .ok (.shape expected) := by
        intro expected hlt heq
        have hrequire : input.registry.require object.shape = .ok expected :=
          Registry.require_eq_ok.mpr (heq ▸ h.valid.lookup_shapeName hlt)
        simp [Tag.of, Tree.shapeOf, Tree.requireObject, hobject, Registry.shapeOf, hrequire,
          Except.mapError, pure, Except.pure]
      rcases hall with hall | ⟨expected, hlt, haccepts, hpromised⟩
      · exact ⟨_, htag shape hcomplete.1 hcomplete.shape_eq, hall shape⟩
      · exact ⟨_, htag expected hlt (h.shape_eq hid hlt hobject hpromised), haccepts⟩

/-- No reference leads out of the arena or to a node of the other kind. -/
theorem Finished.resolves (h : Finished input t tree) {accepts : Tag → Bool} {value : Value}
    (hfits : input.Fits t accepts value) : tree.Resolves value := by
  match value, hfits with
  | .null, _ | .boolean _, _ | .number _, _ | .string _, _ => trivial
  | .array id, ⟨_, hid⟩ =>
      obtain ⟨elements, hnode, -, -⟩ := h.sound.arrays id.index hid.1 hid.2
      rw [← h.nodes] at hnode
      simp [Tree.Resolves, Tree.array?, Tree.node?, hnode]
  | .object id, ⟨hid, _⟩ =>
      obtain ⟨shape, object, hobject, -⟩ := h.object hid
      simp [Tree.Resolves, hobject]

/-- Fields with their values agree with the values one by one. -/
theorem forall₂_zip_names {rel : Field → Value → Prop} {fields : List Field} {values : List Value}
    (h : List.Forall₂ rel fields values) :
    List.Forall₂ (fun field entry => entry.1 = field.name ∧ rel field entry.2) fields
      ((fields.map (·.name)).zip values) := by
  induction h with
  | nil => exact .nil
  | cons hhead _ ih => exact .cons ⟨rfl, hhead⟩ ih

/-- The fields of a complete object are those that its shape declares. A built registry declares no
name twice for a shape, so setting the fields one after another loses none of them. -/
theorem Complete.fields_eq {shape : ShapeId} {object : Object} (hr : input.registry.Valid)
    (h : input.Complete t shape object) : (object.fields.map (·.1)).Nodup ∧
      List.Forall₂ (fun field entry => entry.1 = field.name ∧
        input.Fits t field.type.accepts entry.2) (input.registry.fields shape) object.fields := by
  obtain ⟨-, values, rfl, hfits⟩ := h
  have hnames : ((((input.registry.fields shape).map (·.name)).zip values).map (·.1)).Nodup := by
    rw [List.map_fst_zip (by simp [hfits.length_eq])]
    exact hr.fields_nodup_names shape
  rw [Object.fields_ofFields hnames]
  exact ⟨hnames, forall₂_zip_names hfits⟩

/-- A decoded tree conforms to the registry. This is what the invariant is for: references
resolve, objects have the declared fields in their order, and each value has a tag that is accepted
where it stands. -/
theorem Finished.conforms (h : Finished input t tree)
    (hroot : input.Fits t (fun _ => true) tree.root) (hcycle : tree.findCycle = none) :
    tree.Conforms input.registry where
  resolves value hoccurs := by
    rcases hoccurs with rfl | ⟨id, node, hnode, hvalue⟩
    · exact h.resolves hroot
    · rcases h.node_cases hnode with ⟨shape, object, rfl, hcomplete⟩ | ⟨elements, rfl, -, hfits⟩
      -- A value of an object stands under some field, at the same place in both lists.
      · obtain ⟨entry, hentry, rfl⟩ := List.mem_map.mp hvalue
        obtain ⟨i, hi, rfl⟩ := List.mem_iff_getElem.mp hentry
        obtain ⟨-, hfields⟩ := hcomplete.fields_eq h.valid
        exact h.resolves (hfields.get (hfields.length_eq ▸ hi) hi).2
      · exact h.resolves (hfits value hvalue)
  acyclic := Tree.findCycle_eq_none_iff.mp hcycle
  objects id object hobject := by
    simp only [Tree.object?] at hobject
    split at hobject
    · rename_i content hnode
      obtain rfl := Option.some.inj hobject
      rcases h.node_cases hnode with ⟨shape, object, heq, hcomplete⟩ | ⟨elements, heq, -⟩
      · obtain rfl := Node.object.inj heq
        obtain ⟨hnodup, hfields⟩ := hcomplete.fields_eq h.valid
        refine ⟨shape, hcomplete.shape_eq ▸ h.valid.lookup_shapeName hcomplete.1, hnodup, ?_⟩
        exact hfields.imp fun field entry hentry => ⟨hentry.1, h.tag_of_fits hentry.2⟩
      · simp at heq
    · simp at hobject

/-- Every array of a decoded tree has a length in 32 bits. -/
theorem Finished.length_lt (h : Finished input t tree) {id : NodeId} {elements : List Value}
    (harray : tree.array? id = some elements) : elements.length < UInt32.size := by
  simp only [Tree.array?] at harray
  split at harray
  · rename_i content hnode
    obtain rfl := Option.some.inj harray
    rcases h.node_cases hnode with ⟨shape, object, heq, -⟩ | ⟨elements, heq, hlength, -⟩
    · simp at heq
    · exact Node.array.inj heq ▸ hlength
  · simp at harray

end DecodeInput

/-- What the checks at the end look at: every reference on the list, and the tree for cycles. -/
theorem checkTree_eq_ok {registry : Registry} {tree : Tree} {refs : List ShapeRef}
    (h : checkTree registry tree refs = .ok ()) :
    (∀ ref ∈ refs, checkShapeRef registry tree ref = .ok ()) ∧ tree.findCycle = none := by
  obtain ⟨_, hrefs, hcycle⟩ := bind_eq_ok.mp h
  refine ⟨forM_eq_ok.mp hrefs, ?_⟩
  split at hcycle
  · simp at hcycle
  · assumption

/-- When a decoder has come to its end, all tables are filled and all checks have passed. -/
theorem finished_of_decode {registry : Registry} (hr : registry.Valid) {bytes : List UInt8}
    {tree : Tree} (h : decode bytes registry = .ok tree) :
    ∃ (input : DecodeInput) (t : DecodeState), input.registry = registry ∧
      DecodeInput.Finished input t tree ∧ input.Fits t (fun _ => true) tree.root ∧
      tree.findCycle = none := by
  obtain ⟨input, s, root, t, hsetUp, hsections, htree, hcheck⟩ := decode_eq_ok h
  obtain ⟨hrefs, hcycle⟩ := checkTree_eq_ok hcheck
  have hin := DecodeInput.inRange_of_setUp hr hsetUp
  obtain ⟨-, hsound, hroot⟩ := DecodeInput.readSections_sound hin hsetUp.tables hsetUp.ascending
    (DecodeInput.sound_of_setUp hsetUp) hsections
  obtain rfl := hsetUp.registry_eq
  refine ⟨input, t, rfl, ⟨hr, ?_, hsound, fun ref href => ?_⟩, ?_, hcycle⟩
  · rw [htree]
  · exact hrefs ref (List.mem_reverse.mpr href)
  · rw [htree]
    exact hroot

/-- Whatever the bytes, a tree that is decoded under a built registry conforms to it. Nothing is
asked of the bytes, which need not have been written by an encoder. -/
theorem decode_sound {description : RegistryDescription} {registry : Registry}
    (hbuild : description.build = .ok registry) {bytes : List UInt8} {tree : Tree}
    (h : decode bytes registry = .ok tree) : tree.Conforms registry := by
  have hr := RegistryDescription.valid_of_build hbuild
  obtain ⟨input, t, rfl, hfinished, hroot, hcycle⟩ := finished_of_decode hr h
  exact hfinished.conforms hroot hcycle

theorem pairsTree_conforms : RegistryDescription.pairs.build = .ok .pairs ∧
    decode pairsInPlace .pairs = .ok .pairs ∧ Tree.pairs.Conforms .pairs :=
  ⟨Registry.build_pairs, decode_pairsInPlace, decode_sound Registry.build_pairs decode_pairsInPlace⟩

end Module

end SyntaxPack
