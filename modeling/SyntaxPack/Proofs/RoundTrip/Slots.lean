import SyntaxPack.Proofs.Decode.Directory
import SyntaxPack.Proofs.Decode.Progress
import SyntaxPack.Proofs.RoundTrip.Replay
/-!
# SyntaxPack.Proofs.RoundTrip.Slots

Slots are read back as they were written.

For every form of a value under a tag, the decoder takes the tokens that the writer made of
it. What ties the two recursions together is the one over objects in place: the writer
bounds its depth by the nodes of the tree and the decoder by the bytes of the module, but
where the writer has succeeded the decoder finds its tokens, and its own bound is never met.

Every lemma has the same form: where the writer has made these tokens of a value, the decoder takes
them and no others, and what it returns is a copy of the value. Both sides go through the same
cases, since the writer writes a value under the tag that the decoder reads it under; so each proof
first says what the writer has done in the case at hand, and then puts the steps of the decoder
together by `Reads.bind`, one for each token.

References need some counting besides. A writer refers to an entry by its index in one table, a
decoder finds it at a position in the arena, where all tables stand one behind another (`Locates`).
-/

namespace SyntaxPack

namespace Module

open WriteInput (slotTag)

namespace Replay

variable {c : Replay} {base : List NodeId} {tag : Tag} {id : NodeId} {shape : ShapeId}
  {token : Token} {tokens : List Token} {value : Value}

/-! ### Tags

Tokens go to the stream of their tag, and the decoder looks for them in the stream of the tag that
it expects. For this the two must agree on the index of every tag, which they do as the decoder has
read the tag table by then. -/

/-- A token is found in the stream of its tag, or in the section if there are no streams. -/
theorem reads_fromTag {α : Type} {read : Read α} {bytes : List UInt8} {good : α → Prop}
    (hb : c.IsBuilt) (htag : tag.Registered c.input.registry) (hread : Accepts read bytes good)
    (hbytes : bytes ≠ []) :
    c.Reads base (c.decoder.fromTag tag read) [c.writer.token tag bytes] fun _ => good := by
  rw [WriteInput.token,
    hb.tags.streamIndex_eq (show c.decoder.tags.toList = tagsOf c.shapes from rfl) htag]
  exact reads_fromStream hread hbytes

/-- The token of a tag is read as that tag, provided that the tag has an entry in the tag table. -/
theorem reads_readTag (hb : c.IsBuilt) (htag : tag ∈ tagsOf c.shapes)
    (h : c.writer.tagToken tag = .ok token) :
    c.Reads base c.decoder.readTag [token] fun _ found => found = tag := by
  obtain ⟨index, hindex, h₁⟩ := bind_eq_ok.mp h
  obtain ⟨bytes, hbytes, h₂⟩ := bind_eq_ok.mp h₁
  obtain rfl := Except.ok.inj h₂
  rw [mapError_eq_ok] at hindex hbytes
  have hget : (tagsOf c.shapes)[index]? = some tag :=
    (hb.tags.tagIndex_eq_ok_iff tag index (hb.filled.tags.registered_of_mem htag)).mp hindex
  refine (reads_fromTag hb (Tag.registered_builtin _ .any)
    (accepts_located (IndexEncoding.takes_readIndex hbytes))
    (IndexEncoding.writeToken_ne_nil hbytes)).bind fun origins located _ hlocated => ?_
  obtain ⟨offset, found⟩ := located
  obtain rfl : found = index := hlocated
  exact reads_require (by simpa using hget)

/-- A reference is read as the index it was made of. -/
theorem reads_reference (hb : c.IsBuilt) (htag : tag.Registered c.input.registry) {label : String}
    {index : Option Nat} (h : c.writer.referenceToken tag label index = .ok token) :
    c.Reads base (c.decoder.fromTag tag
      (DecodeInput.located c.input.config.indexEncoding.readReference)) [token]
      fun _ located => located.2 = index := by
  obtain ⟨bytes, hbytes, h₁⟩ := bind_eq_ok.mp h
  obtain rfl := Except.ok.inj h₁
  rw [mapError_eq_ok] at hbytes
  exact reads_fromTag hb htag (accepts_located (IndexEncoding.takes_readReference hbytes))
    (IndexEncoding.writeToken_ne_nil hbytes)

/-- Nothing is read of a value that is absent where it may be absent. -/
theorem reads_nullOr {offset : Nat} {expected : String} :
    c.Reads base (DecodeInput.nullOr true offset expected) [] fun origins found =>
      Copies c.rank origins .null found :=
  .pure fun _ _ => .plain rfl

/-! ### References to objects

The decoder lists the slots of every table, each with the position that its objects start at. What
has to be shown is that the table which the writer looks an object up in is the one that the decoder
picks for the same slot, and that positions in the arena are indices shifted by where the table
starts. -/

/-- The table at a place in the list of tables starts where the tables before it end. -/
theorem slotsOf_split (registry : Registry) (first : Nat) (before after : List ObjectTable)
    (table : ObjectTable) : slotsOf registry first (before ++ table :: after) =
      slotsOf registry first before ++
        slotsOf registry (first + (before.map (·.table.keys.length)).sum) (table :: after) := by
  induction before generalizing first with
  | nil => rfl
  | cons head before ih =>
      rw [List.cons_append, slotsOf, ih, List.map_cons, List.sum_cons, Nat.add_assoc]
      rfl

/-- The slots of a table lead to its objects: there are as many, and the one with an index is found
where the table starts, so many places on. -/
structure Locates (c : Replay) (slots : ObjectSlots) (keys : List NodeId) : Prop where
  count : slots.count = keys.length
  order : ∀ i id, keys[i]? = some id → c.order[slots.first + i]? = some id

/-- Where a table starts is the number of entries in the tables before it. -/
theorem length_flatMap_keys (tables : List ObjectTable) :
    (tables.flatMap (·.table.keys)).length = (tables.map (·.table.keys.length)).sum := by
  rw [List.length_flatMap]

/-- Where the slots of a table stand in the directory, its objects stand in the order. -/
theorem locates_of_split {before after : List ObjectTable} {table : ObjectTable}
    (h : c.module.objects.tables = before ++ table :: after) {slots : ObjectSlots}
    (hfirst : slots.first = (before.map (·.table.keys.length)).sum)
    (hcount : slots.count = table.table.keys.length) : c.Locates slots table.table.keys := by
  refine ⟨hcount, fun i id hi => ?_⟩
  have hlt := (List.getElem?_eq_some_iff.mp hi).1
  rw [Replay.order, h, List.flatMap_append, List.flatMap_cons, List.append_assoc,
    List.append_assoc, List.getElem?_append_right, length_flatMap_keys, hfirst,
    Nat.add_sub_cancel_left, List.getElem?_append_left hlt, hi]
  rw [length_flatMap_keys, hfirst]
  exact Nat.le_add_right _ _

/-- The decoder has the same shapes for its tables as the writer. -/
theorem map_shape_slotsOf (registry : Registry) (first : Nat) (tables : List ObjectTable) :
    (slotsOf registry first tables).map (·.shape) = tables.map (·.shape) := by
  induction tables generalizing first with
  | nil => rfl
  | cons table tables ih => rw [slotsOf, List.map_cons, List.map_cons, ih]

/-- A slot for objects of a shape refers to the table that the writer looks them up in. -/
theorem locates_slotsFor (hb : c.IsBuilt) {t : UniqueTable NodeId}
    (ht : c.module.objects.table? shape = some t) {expected : Option ShapeId}
    (hexpected : expected = some shape ∨ c.input.config.partitionedTables = false) :
    c.Locates (c.decoder.slotsFor expected) t.keys := by
  have hpartitioned := hb.partitioned
  -- In a shared table it does not matter which shape is asked for. With one table for each shape
  -- the slot has to name the shape, and then no other table is found.
  cases hp : c.input.config.partitionedTables with
  | false =>
      rw [hp] at hpartitioned
      obtain ⟨shared, htables⟩ := hb.filled.wellShaped.shared hpartitioned
      obtain rfl : shared = t := by
        rw [ObjectTables.table?_of_shared hpartitioned htables] at ht
        exact Option.some.inj ht
      have hfor : c.decoder.tableFor expected = some ⟨ObjectTables.sharedLabel, none, 0,
          shared.keys.length⟩ := by
        cases expected <;> simp [DecodeInput.tableFor, EncodingConfig.wire, hp, htables, slotsOf]
      rw [DecodeInput.slotsFor, hfor, Option.getD_some]
      exact @locates_of_split c [] [] ⟨none, shared⟩ htables _ rfl rfl
  | true =>
      rw [hp] at hpartitioned hexpected
      obtain rfl : expected = some shape := by simpa using hexpected
      have hw := hb.filled.wellShaped
      obtain ⟨before, after, hsplit⟩ :=
        List.append_of_mem ((hw.table?_eq_some_iff hpartitioned).mp ht)
      have hnodup := hw.nodup hpartitioned
      rw [hsplit, List.map_append, List.map_cons, List.nodup_append, List.nodup_cons] at hnodup
      have hfor : c.decoder.tableFor (some shape) = some
          ⟨ObjectTables.labelOf (c.input.registry.shapeName shape), some shape,
            (before.map (·.table.keys.length)).sum, t.keys.length⟩ := by
        have htables : c.decoder.tables = slotsOf c.input.registry 0 (before ++ ⟨some shape, t⟩ :: after) := by
          rw [← hsplit]
        rw [slotsOf_split, slotsOf, Nat.zero_add] at htables
        refine (DecodeInput.tableFor_eq_some hp).mpr ⟨_, _, htables, rfl, fun slots hslots heq => ?_⟩
        -- The decoder takes the last table of a shape; there is no other one after this.
        have hmem := List.mem_map_of_mem (f := ObjectSlots.shape) hslots
        rw [map_shape_slotsOf, heq] at hmem
        exact hnodup.2.1.1 hmem
      rw [DecodeInput.slotsFor, hfor, Option.getD_some]
      exact locates_of_split hsplit rfl rfl

/-- A reference leads to the object at its index. Its shape is checked when all objects have
been read, and found to be right. -/
theorem reads_objectRef (hb : c.IsBuilt) {t : UniqueTable NodeId}
    (ht : c.module.objects.table? shape = some t) {index offset : Nat}
    (hkey : t.keys[index]? = some id)
    (hshape : c.input.tree.shape? c.input.registry id = some shape) {expected : Option ShapeId}
    (hexpected : expected.all (· = shape) = true)
    (hshared : expected = none → c.input.config.partitionedTables = false) :
    c.Reads base (c.decoder.objectRef expected index offset) [] fun origins found =>
      ∃ i, found = Value.object ⟨i⟩ ∧ origins[i]? = some id := by
  have hlocates : c.Locates (c.decoder.slotsFor expected) t.keys := by
    refine locates_slotsFor hb ht ?_
    cases expected with
    | none => exact Or.inr (hshared rfl)
    | some other => exact Or.inl (by simpa using hexpected)
  have hlt : index < (c.decoder.slotsFor expected).count := by
    rw [hlocates.count]
    exact (List.getElem?_eq_some_iff.mp hkey).1
  -- No token is taken, and the state changes at most by a reference that is noted down.
  intro p origins rest s hbase hs
  have hget := getElem?_mono hs.order (hlocates.order index id hkey)
  refine ⟨_, _, origins, DecodeInput.objectRef_eq_ok.mpr ⟨hlt, rfl, rfl⟩, List.prefix_refl _,
    ⟨hs.file, hs.loaded, hs.left_le, hs.order, hs.hasNode, hs.size_eq, hs.inPlace, hs.copied, ?_⟩,
    _, rfl, hget⟩
  -- The reference may be recorded, to be checked once every object has been read.
  intro ref href
  rcases List.mem_append.mp href with href | href
  · refine ⟨id, ?_⟩
    cases expected with
    | none => exact absurd href List.not_mem_nil
    | some other =>
        obtain rfl : other = shape := by simpa using hexpected
        simp only [DecodeInput.pendingRefs] at href
        split at href
        · exact absurd href List.not_mem_nil
        · obtain rfl := List.mem_singleton.mp href
          exact ⟨hget, hshape⟩
  · exact hs.shapeRefs ref href

/-- The arrays stand behind the objects. -/
theorem getElem?_order_array {index : Nat} (hkey : c.module.arrays.keys[index]? = some id) :
    c.order[c.objectCount + index]? = some id := by
  rw [Replay.order, List.getElem?_append_right, length_flatMap_keys, ← hkey]
  · exact congrArg (c.module.arrays.keys[·]?) (Nat.add_sub_cancel_left _ _)
  · rw [length_flatMap_keys]
    exact Nat.le_add_right _ _

/-- A reference leads to the array at its index. -/
theorem reads_arrayRef {id survivor : NodeId} {index : Nat}
    (hkey : c.module.arrays.keys[index]? = some survivor) (hrank : c.rank survivor = c.rank id) :
    c.Reads base (pure (Value.array ⟨c.decoder.firstArray + index⟩)) [] fun origins found =>
      Copies c.rank origins (.array id) found := by
  intro p origins rest s hbase hs
  exact ⟨_, s, origins, rfl, List.prefix_refl _, hs,
    .array (getElem?_mono hs.order (getElem?_order_array hkey)) hrank⟩

/-! ### Slots

How the fields of an object in place are read is left open here, as it is for writing: `FieldsRead`
is what a pair of functions for the two sides must satisfy. It is asked for all nodes at once and
not only for smaller ones, because the writer's own depth bounds the recursion. -/

/-- What the fields of an object are read as: an object of the same shape whose values are copies of
those in the object's slots. -/
def FieldsOf (c : Replay) (shape : ShapeId) (id : NodeId) (origins : List NodeId)
    (object : Object) : Prop :=
  ∃ values, object = c.input.registry.objectOf shape values ∧
    List.Forall₂ (Copies c.rank origins) (c.input.tree.slots c.input.registry id) values

/-- Fields that are written one way are read back the other way, wherever in the module this is. -/
def FieldsRead (c : Replay) (writeFields : ShapeId → NodeId → Except Error (List Token))
    (readFields : ShapeId → Decode Object) : Prop :=
  ∀ base shape id tokens, c.module.HasNode c.input.tree c.input.registry id →
    c.input.tree.shape? c.input.registry id = some shape →
    writeFields shape id = .ok tokens →
    c.Reads base (readFields shape) tokens (c.FieldsOf shape id)

variable {writeFields : ShapeId → NodeId → Except Error (List Token)}
  {readFields : ShapeId → Decode Object}

/-- An object without a position in its table has none in the order of all nodes. So an object that
is written in place is not in the arena already when its fields have been read. -/
theorem notMem_order (hb : c.IsBuilt) {t : UniqueTable NodeId} {entry : Handle} {survivor : NodeId}
    (hfound : FoundObject c.input c.rank c.module shape id t entry survivor)
    (h : survivor ∉ t.keys) : survivor ∉ c.order := by
  intro hmem
  rcases List.mem_append.mp hmem with hobject | harray
  · obtain ⟨table, htable, hkey⟩ := List.mem_flatMap.mp hobject
    obtain ⟨other, hu, -⟩ := hb.filled.wellShaped.exists_table? htable
    exact h (hb.mem_keys_of_mem_keys hfound.shape_eq hfound.table hu hkey)
  · obtain ⟨object, hobject, -⟩ := Tree.shape?_eq_some_iff.mp hfound.shape_eq
    have harray := (hb.array_of_mem_keys harray).1
    simp [Tree.array?_eq_none_of_object hobject] at harray

/-- An object in place, after its marker: its fields are read, and then a node is added for it,
behind all nodes that are there. The origin of the new node is the object that was written. -/
theorem reads_inPlace (hinline : c.input.config.inlineObjects = true)
    (hfields : c.FieldsRead writeFields readFields)
    (hid : c.module.HasNode c.input.tree c.input.registry id) (hnew : id ∉ c.order)
    (hshape : c.input.tree.shape? c.input.registry id = some shape)
    (hwrite : writeFields shape id = .ok tokens) :
    c.Reads base (do
      let object ← readFields shape
      return Value.object (← pushNode (.object object))) tokens fun origins found =>
        ∃ i, found = Value.object ⟨i⟩ ∧ origins[i]? = some id := by
  -- Pushing the node takes no tokens: all of them belong to the fields.
  have hend : c.Reads base (do
      let object ← readFields shape
      return Value.object (← pushNode (.object object))) (tokens ++ ([] ++ [])) fun origins found =>
        ∃ i, found = Value.object ⟨i⟩ ∧ origins[i]? = some id := by
    refine (hfields base shape id tokens hid hshape hwrite).bind fun origins object _ hobject => ?_
    obtain ⟨values, rfl, hvalues⟩ := hobject
    refine (reads_pushNode hinline hid hnew (.object hshape hvalues)).bind fun origins' pushed _ hpushed => ?_
    exact .pure fun origins'' hgrow => ⟨pushed.index, rfl, getElem?_mono hgrow hpushed⟩
  rwa [List.append_nil, List.append_nil] at hend

/-- An object slot that holds an object. The writer has three forms for this. If objects may be in
place, a marker says whether a reference follows or the fields themselves; if not, there is a
reference and nothing else. -/
theorem reads_objectSlot (hb : c.IsBuilt) (hfields : c.FieldsRead writeFields readFields)
    (hid : c.module.HasNode c.input.tree c.input.registry id)
    (hshape : c.input.tree.shape? c.input.registry id = some shape) {expected : Option ShapeId}
    (hexpected : expected.all (· = shape) = true)
    (hshared : expected = none → c.input.config.partitionedTables = false) {nullable : Bool}
    {site : Site} (h : c.writer.objectSlot writeFields expected site id = .ok tokens) :
    c.Reads base (c.decoder.objectSlot readFields expected nullable) tokens
      fun origins found => Copies c.rank origins (.object id) found := by
  have hobject := (hasNode_object_iff hshape).mp hid
  obtain ⟨t, entry, survivor, hfound⟩ := hb.object hshape hobject
  have hlisted := mem_tagsOf_shape.mpr (hb.filled.mem_shapes shape id hshape hobject)
  have hslotTag : (slotTag expected).Registered c.input.registry := by
    cases expected with
    | none => exact Tag.registered_builtin _ .object
    | some other =>
        obtain rfl : other = shape := by simpa using hexpected
        exact hb.filled.tags.registered_of_mem hlisted
  -- All three forms lead to a node whose origin is the survivor.
  suffices c.Reads base (c.decoder.objectSlot readFields expected nullable) tokens fun origins found =>
      ∃ i, found = Value.object ⟨i⟩ ∧ origins[i]? = some survivor by
    refine this.weaken fun origins found _ hfound' => ?_
    obtain ⟨i, rfl, hget⟩ := hfound'
    exact .object hget hfound.rank_eq
  rcases objectSlot_cases hshape hfound hexpected writeFields site with
    ⟨hinline, index, hkey, heq⟩ | ⟨hinline, hnotMem, heq⟩ | ⟨hinline, index, hkey, heq⟩
  · rw [heq] at h
    -- A reference behind the marker of objects. The index is written as it is, since null has a
    -- marker of its own.
    obtain ⟨marker, hmarker, h₁⟩ := bind_eq_ok.mp h
    obtain ⟨bytes, hbytes, h₂⟩ := bind_eq_ok.mp h₁
    obtain rfl := Except.ok.inj h₂
    rw [mapError_eq_ok] at hbytes
    have hwire : c.input.config.wire.inlineObjects = true := hinline
    simp only [DecodeInput.objectSlot, hwire, if_true]
    refine Reads.bind (y := [marker, _]) reads_offset fun _ _ _ _ => ?_
    refine Reads.bind (x := [marker]) (reads_readTag hb (mem_tagsOf_builtin _) hmarker)
      fun _ found _ hfound' => ?_
    obtain rfl : found = .builtin .object := hfound'
    refine Reads.bind (y := []) (reads_fromTag hb hslotTag
      (accepts_located (IndexEncoding.takes_readIndex hbytes))
      (IndexEncoding.writeToken_ne_nil hbytes)) fun _ located _ hlocated => ?_
    obtain ⟨offset, found⟩ := located
    obtain rfl : found = index := hlocated
    exact reads_objectRef hb hfound.table hkey hfound.shape_eq hexpected hshared
  · rw [heq] at h
    -- The fields of the object, behind the tag of its shape.
    obtain ⟨marker, hmarker, h₁⟩ := bind_eq_ok.mp h
    obtain ⟨fields, hwrite, h₂⟩ := bind_eq_ok.mp h₁
    obtain rfl := Except.ok.inj h₂
    have hwire : c.input.config.wire.inlineObjects = true := hinline
    simp only [DecodeInput.objectSlot, hwire, if_true]
    refine Reads.bind (y := marker :: fields) reads_offset fun _ _ _ _ => ?_
    refine Reads.bind (x := [marker]) (reads_readTag hb hlisted hmarker)
      fun _ found _ hfound' => ?_
    obtain rfl : found = .shape shape := hfound'
    refine Reads.bind (x := []) (reads_ensure hexpected) fun _ _ _ _ => ?_
    exact reads_inPlace hinline hfields hfound.hasNode (notMem_order hb hfound hnotMem) hfound.shape_eq
      hwrite
  · rw [heq] at h
    -- A reference alone, where zero stands for null and so indices are one greater.
    obtain ⟨token, htoken, h₁⟩ := bind_eq_ok.mp h
    obtain rfl := Except.ok.inj h₁
    have hwire : c.input.config.wire.inlineObjects = false := hinline
    simp only [DecodeInput.objectSlot, hwire, Bool.false_eq_true, if_false]
    refine Reads.bind (y := []) (reads_reference hb hslotTag htoken)
      fun _ located _ hlocated => ?_
    obtain ⟨offset, found⟩ := located
    obtain rfl : found = some index := hlocated
    exact reads_objectRef hb hfound.table hkey hfound.shape_eq hexpected hshared

/-- An object slot that holds null: the marker of null where there are markers, and else a reference
to nothing. -/
theorem reads_nullObjectSlot (hb : c.IsBuilt) {expected : Option ShapeId}
    (htag : (slotTag expected).Registered c.input.registry)
    (h : c.writer.nullObjectSlot expected = .ok tokens) :
    c.Reads base (c.decoder.objectSlot readFields expected true) tokens
      fun origins found => Copies c.rank origins .null found := by
  cases hinline : c.input.config.inlineObjects with
  | true =>
      have hwire : c.input.config.wire.inlineObjects = true := hinline
      simp only [WriteInput.nullObjectSlot, hwire, if_true] at h
      obtain ⟨marker, hmarker, h₁⟩ := bind_eq_ok.mp h
      obtain rfl := Except.ok.inj h₁
      simp only [DecodeInput.objectSlot, hwire, if_true]
      refine Reads.bind (y := [marker]) reads_offset fun _ _ _ _ => ?_
      refine Reads.bind (y := []) (reads_readTag hb (mem_tagsOf_builtin _) hmarker)
        fun _ found _ hfound => ?_
      obtain rfl : found = .builtin .null := hfound
      exact reads_nullOr
  | false =>
      have hwire : c.input.config.wire.inlineObjects = false := hinline
      simp only [WriteInput.nullObjectSlot, hwire, Bool.false_eq_true, if_false] at h
      obtain ⟨token, htoken, h₁⟩ := bind_eq_ok.mp h
      obtain rfl := Except.ok.inj h₁
      simp only [DecodeInput.objectSlot, hwire, Bool.false_eq_true, if_false]
      refine Reads.bind (y := []) (reads_reference hb htag htoken)
        fun _ located _ hlocated => ?_
      obtain ⟨offset, found⟩ := located
      obtain rfl : found = none := hlocated
      exact reads_nullOr

/-- A value is read back under every tag that it is stored under. The cases are those of writing:
some values are known from the tag and take no token, scalars stand where they are used, strings and
arrays are references into their tables, and objects are dealt with above. -/
theorem reads_underTag (hb : c.IsBuilt) (hfields : c.FieldsRead writeFields readFields)
    {nullable : Bool} (hstored : Tag.Stored c.input.tree c.input.registry tag nullable value)
    (hregistered : tag.Registered c.input.registry)
    (hshared : tag = .builtin .object → c.input.config.partitionedTables = false)
    (hholds : c.module.Holds c.input.tree c.input.registry value) {site : Site}
    (h : c.writer.underTag writeFields tag nullable site value = .ok tokens) :
    c.Reads base (c.decoder.underTag readFields tag nullable) tokens
      fun origins found => Copies c.rank origins value found := by
  cases hstored with
  | null | trueValue | falseValue =>
      obtain rfl := Except.ok.inj h
      exact .pure fun _ _ => .plain rfl
  | integer _ hpayload =>
      simp only [WriteInput.underTag, hpayload] at h
      obtain rfl := Except.ok.inj h
      have hisPayload := (Double.integerPayload_eq_some_iff.mp hpayload).2.2
      refine Reads.bind (y := []) (reads_fromTag hb (Tag.registered_builtin _ .integer)
        (accepts_of_takes (IndexEncoding.takes_readInteger hisPayload))
        (IndexEncoding.writeInteger_ne_nil _ _)) fun _ found _ hfound => ?_
      obtain rfl := hfound
      rw [Double.ofInt_of_integerPayload hpayload]
      exact .pure fun _ _ => .plain rfl
  | double _ d =>
      obtain rfl := Except.ok.inj h
      have hbytes : Bytes.ofDouble d ≠ [] := by simp [Bytes.ofDouble, Bytes.fixed]
      refine Reads.bind (y := []) (reads_fromTag hb (Tag.registered_builtin _ .double)
        (accepts_of_takes (Read.takes_double d)) hbytes) fun _ found _ hfound => ?_
      obtain rfl := hfound
      exact .pure fun _ _ => .plain rfl
  | string _ s =>
      obtain ⟨index, hok, hkey⟩ := hb.string hholds
      simp only [WriteInput.underTag, hok, Except.mapError, ok_bind] at h
      obtain ⟨token, htoken, h₁⟩ := bind_eq_ok.mp h
      obtain rfl := Except.ok.inj h₁
      refine Reads.bind (y := []) (reads_reference hb (Tag.registered_builtin _ .string) htoken)
        fun _ located _ hlocated => ?_
      obtain ⟨offset, found⟩ := located
      obtain rfl : found = some index := hlocated
      refine Reads.bind (x := []) (reads_require (a := s) (by simpa using hkey))
        fun _ found _ hfound => ?_
      obtain rfl := hfound
      exact .pure fun _ _ => .plain rfl
  | array _ id =>
      obtain ⟨index, survivor, hok, hkey, hnode, -, hrank⟩ := hb.array hholds.1 hholds.2
      simp only [WriteInput.underTag, hok, Except.mapError, ok_bind] at h
      obtain ⟨token, htoken, h₁⟩ := bind_eq_ok.mp h
      obtain rfl := Except.ok.inj h₁
      refine Reads.bind (y := []) (reads_reference hb (Tag.registered_builtin _ .array) htoken)
        fun origins located _ hlocated => ?_
      obtain ⟨offset, found⟩ := located
      obtain rfl : found = some index := hlocated
      refine Reads.bind (x := []) (reads_ensure (List.getElem?_eq_some_iff.mp hkey).1)
        fun _ _ _ _ => ?_
      exact reads_arrayRef hkey hrank
  | object _ hshape =>
      exact reads_objectSlot hb hfields (hholds.hasNode rfl) hshape rfl (fun _ => hshared rfl) h
  | shape _ hshape =>
      exact reads_objectSlot hb hfields (hholds.hasNode rfl) hshape (by simp) (by simp) h
  | absent hreference =>
      rcases tag with (_ | _) | shape
      case builtin.string | builtin.array =>
        obtain ⟨token, htoken, h₁⟩ := bind_eq_ok.mp h
        obtain rfl := Except.ok.inj h₁
        refine Reads.bind (y := []) (reads_reference hb (Tag.registered_builtin _ _) htoken)
          fun _ located _ hlocated => ?_
        obtain ⟨offset, found⟩ := located
        obtain rfl : found = none := hlocated
        exact reads_nullOr
      case builtin.object => exact reads_nullObjectSlot hb (Tag.registered_builtin _ .object) h
      case shape => exact @reads_nullObjectSlot c base tokens readFields hb (some shape) hregistered h
      all_goals simp [Tag.isReference] at hreference

/-- A value that fits into a slot is read back from there. A slot of one type is laid out by that
type alone; a slot of several types starts with the tag of the value. -/
theorem reads_slot (hb : c.IsBuilt) (hfields : c.FieldsRead writeFields readFields)
    {codec : Codec} (hfits : FitsSlot c.input c.module codec value) {site : Site}
    (h : c.writer.slot writeFields codec site value = .ok tokens) :
    c.Reads base (c.decoder.slot readFields codec) tokens
      fun origins found => Copies c.rank origins value found := by
  cases codec with
  | fixed fixedTag nullable =>
      refine reads_underTag hb hfields hfits.stored hfits.registered_fixed (fun htag => ?_)
        hfits.holds h
      subst htag
      exact hfits.shared nullable rfl
  | tagged decl =>
      obtain ⟨tag, htag, haccepts⟩ := hfits.tag
      obtain ⟨listed, hlisted, hmem⟩ := hb.tag_mem hfits.holds
      obtain rfl : listed = tag := Except.ok.inj (hlisted.symm.trans htag)
      have haccepts : decl.accepts listed = true := haccepts
      -- The marker is the tag of the value itself, which the decoder checks before it reads on.
      have hterminal := Tag.isTerminal_of_of htag
      simp only [WriteInput.slot, htag, ok_bind, haccepts, Bool.not_true, Bool.false_eq_true,
        if_false] at h
      obtain ⟨marker, hmarker, h₁⟩ := bind_eq_ok.mp h
      obtain ⟨rest, hrest, h₂⟩ := bind_eq_ok.mp h₁
      obtain rfl := Except.ok.inj h₂
      refine Reads.bind (y := marker :: rest) reads_offset fun _ _ _ _ => ?_
      refine Reads.bind (x := [marker]) (reads_readTag hb hmem hmarker)
        fun _ found _ hfound => ?_
      obtain rfl := hfound
      refine Reads.bind (x := []) (reads_ensure ?_) fun _ _ _ _ => ?_
      · intro hany
        simp [hany, Tag.isTerminal] at hterminal
      refine Reads.bind (x := []) (reads_ensure (by simp [hterminal, haccepts]))
        fun _ _ _ _ => ?_
      refine reads_underTag hb hfields (Tag.stored_of_holds htag (Tag.holds_self hterminal))
        (hb.filled.tags.registered_of_mem hmem) (fun hobject => ?_) hfits.holds hrest
      simp [hobject, Tag.isTerminal] at hterminal

/-! ### Fields

The values of an object are read one after another, and so are the elements of an array. While
that goes on the list of origins grows, which leaves the values that have been read as they are. -/

/-- Slots that are written one after another are read one after another. The induction is on the
slots; nodes in place may be added by each of them, so the list of origins is not fixed. -/
theorem reads_mapM {α : Type} {step : α → Decode Value} {source : α → Value} {xs : List α}
    {parts : List (List Token)}
    (h : List.Forall₂ (fun x part => ∀ base, c.Reads base (step x) part
      fun origins found => Copies c.rank origins (source x) found) xs parts) :
    c.Reads base (xs.mapM step) parts.flatten fun origins values =>
      List.Forall₂ (Copies c.rank origins) (xs.map source) values := by
  induction h generalizing base with
  | nil => exact .pure fun _ _ => .nil
  | @cons x part xs parts hx _ ih =>
      rw [List.mapM_cons, List.flatten_cons]
      refine (hx base).bind fun origins value _ hvalue => ?_
      have hrest : c.Reads origins (do return value :: (← xs.mapM step)) (parts.flatten ++ [])
          fun origins values => List.Forall₂ (Copies c.rank origins) ((x :: xs).map source) values :=
        ih.bind fun origins' values hgrow hvalues =>
          .pure fun origins'' hgrow' =>
            .cons (hvalue.mono (hgrow.trans hgrow')) (copies_mono hgrow' hvalues)
      rwa [List.append_nil] at hrest

/-- An object is read back field by field, if those in its slots are. -/
theorem reads_fieldSlots (hb : c.IsBuilt) (hr : c.input.registry.Valid)
    (hfields : c.FieldsRead writeFields readFields) :
    c.FieldsRead (c.writer.fieldSlots writeFields) (c.decoder.fieldSlots readFields) := by
  intro base shape id tokens hid hshape h
  obtain ⟨object, hobject, hlookup⟩ := Tree.shape?_eq_some_iff.mp hshape
  simp only [WriteInput.fieldSlots, Tree.requireObject_eq_ok.mpr hobject, ok_bind] at h
  obtain ⟨parts, hparts, h₁⟩ := bind_eq_ok.mp h
  obtain rfl := Except.ok.inj h₁
  have hslots : List.Forall₂ (fun field part => ∀ base, c.Reads base (c.decoder.slot readFields
      (Codec.ofDecl field.type c.input.config.partitionedTables)) part
      fun origins found => Copies c.rank origins (object.get field.name) found)
      (c.input.registry.fields shape) parts := by
    have hmem := (List.forall₂_and_left (c.input.registry.fields shape) parts).mpr
      ⟨fun _ hfield => hfield, mapM_eq_ok.mp hparts⟩
    refine hmem.imp fun field part hwrite base => ?_
    exact reads_slot hb hfields (hb.fits_field hr hid hobject hlookup hwrite.1) hwrite.2
  have hread : c.Reads base (c.decoder.fieldSlots readFields shape) (parts.flatten ++ [])
      (c.FieldsOf shape id) := by
    refine (reads_mapM hslots).bind fun origins values _ hvalues => .pure fun origins' hgrow => ?_
    refine ⟨values, rfl, ?_⟩
    rw [Tree.slots_of_object hobject hlookup]
    exact copies_mono hgrow hvalues
  rwa [List.append_nil] at hread

/-- However deep objects were written in one another, they are read back: wherever an object is in
place, fewer bytes are unread than the decoder allows for. The induction is on the depth of the
writer. The decoder reads without a bound in the statement, and with its own one in each step. -/
theorem reads_fieldsWithin (hb : c.IsBuilt) (hr : c.input.registry.Valid) (depth : Nat) :
    c.FieldsRead (c.writer.fieldsWithin depth) c.decoder.objectFields := by
  induction depth with
  | zero =>
      intro base shape id tokens _ _ h
      simp [WriteInput.fieldsWithin] at h
  | succ depth ih =>
      intro base shape id tokens hid hshape h
      refine Reads.congr (reads_fieldSlots hb hr ih base shape id tokens hid hshape h)
        fun p origins rest s hs => ?_
      exact DecodeInput.objectFields_eq hs.loaded.ascending
        (Nat.le_trans (Nat.le_add_left _ _) hs.left_le)

theorem reads_objectFields (hb : c.IsBuilt) (hr : c.input.registry.Valid) :
    c.FieldsRead c.writer.objectFields c.decoder.objectFields :=
  reads_fieldsWithin hb hr _

end Replay

end Module

end SyntaxPack
