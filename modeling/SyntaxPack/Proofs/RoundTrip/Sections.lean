import SyntaxPack.Proofs.RoundTrip.Slots
/-!
# SyntaxPack.Proofs.RoundTrip.Sections

Sections are read back as they were written.

The object tables are read in the order in which their nodes were set up, and the arrays
follow them. So one number says which nodes of the tables have been read, and every entry
adds one to it. A section starts where the one before it ended, with its own tokens in
front and those of the sections behind it still in the streams.
-/

namespace SyntaxPack

open Token (sectionBytes)

namespace Module

namespace Replay

variable {c : Replay} {later tokens rest : List Token} {file : Reader} {first : Nat}
  {origins : List NodeId} {s : DecodeState}

/-! ### Entries

`ReadsNodes` is `Reads` for steps that return nothing but read nodes of the tables, counted by their
position in the order. -/

/-- Wherever these tokens are next, a step reads the nodes of the order from one position to
another. -/
def ReadsNodes (c : Replay) (first last : Nat) (step : Decode Unit) (tokens : List Token) : Prop :=
  ∀ later file origins rest s, c.At ⟨later, file, first⟩ origins (tokens ++ rest) s →
    ∃ t origins', step s = .ok () t ∧ c.At ⟨later, file, last⟩ origins' rest t

/-- The number of entries that a section starts with. -/
theorem reads_count {base : List NodeId} {label label' : String} {count : Nat} {token : Token}
    (h : WriteInput.countToken label count = .ok token) :
    c.Reads base (Decode.count label' count) [token] fun _ _ => True := by
  obtain ⟨bytes, hbytes, h₁⟩ := bind_eq_ok.mp h
  obtain rfl := Except.ok.inj h₁
  obtain ⟨hlt, rfl⟩ := Bytes.ofCount_eq_ok_iff.mp (mapError_eq_ok.mp hbytes)
  exact (reads_fromSection (accepts_of_takes (Read.takes_nat32 hlt))).bind (y := [])
    fun _ found _ hfound => reads_ensure hfound

/-- The entries of a section are read one after another, behind their number. -/
theorem reads_entries {step : Nat → Decode Unit} {label label' : String} {count : Nat}
    {token : Token} {parts : List (List Token)} (hlength : parts.length = count)
    (htoken : WriteInput.countToken label count = .ok token)
    (h : ∀ i part, parts[i]? = some part →
      c.ReadsNodes (first + i) (first + i + 1) (step i) part) :
    c.ReadsNodes first (first + count)
      (do
        Decode.count label' count
        let _ ← Decode.replicate count step) (token :: parts.flatten) := by
  subst hlength
  intro later file origins rest s hs
  refine Reads.followed (x := [token]) (reads_count htoken) hs fun origins' _ u _ _ hu => ?_
  obtain ⟨items, t, hrun, hitems, origins'', ht⟩ := @Decode.replicate_progress Unit u
    (fun done t => ∃ origins', c.At ⟨later, file, first + done.length⟩ origins'
      ((parts.drop done.length).flatten ++ rest) t) parts.length step
    ⟨origins', hu⟩ fun done t hlt ⟨origins', ht⟩ => by
      rw [List.drop_eq_getElem_cons hlt, List.flatten_cons, List.append_assoc] at ht
      obtain ⟨v, last, hrun, hv⟩ := h done.length _ (List.getElem?_eq_getElem hlt) later file
        origins' _ t ht
      refine ⟨(), v, hrun, last, ?_⟩
      rw [List.length_append, List.length_singleton, ← Nat.add_assoc]
      exact hv
  rw [hitems, List.drop_length, List.flatten_nil, List.nil_append] at ht
  exact ⟨t, origins'', (run_bind_of_ok hrun).trans rfl, ht⟩

/-! ### Object tables

An object table is written from the entries with an index, and these are the nodes that the decoder
has set up for it, in the same order. -/

/-- An entry of an object table: its tag, its fields, and its place. -/
theorem reads_tableEntry (hb : c.IsBuilt) (hr : c.input.registry.Valid) {slots : ObjectSlots}
    {index : Nat} {id : NodeId} {own : ShapeId} (hget : c.order[slots.first + index]? = some id)
    (hid : c.module.HasNode c.input.tree c.input.registry id)
    (hown : c.input.tree.shape? c.input.registry id = some own)
    (hshape : slots.shape.all (· = own) = true) {marker : Token} {fields : List Token}
    (hmarker : c.writer.tagToken (.shape own) = .ok marker)
    (hfields : c.writer.objectFields own id = .ok fields) :
    c.ReadsNodes (slots.first + index) (slots.first + index + 1)
      (c.decoder.readTableEntry slots index) (marker :: fields) := by
  intro later file origins rest s hs
  have hobject := (hasNode_object_iff hown).mp hid
  have hlisted := mem_tagsOf_shape.mpr (hb.filled.mem_shapes own id hown hobject)
  refine Reads.followed (x := []) reads_offset hs fun _ _ _ _ _ h₁ => ?_
  refine Reads.followed (x := [marker]) (reads_readTag hb hlisted hmarker) h₁
    fun _ found _ _ hfound h₂ => ?_
  obtain rfl : found = .shape own := hfound
  refine Reads.followed (x := []) (reads_ensure hshape) h₂ fun _ _ _ _ _ h₃ => ?_
  refine Reads.followed (reads_objectFields hb hr _ own id fields hid hown hfields) h₃
    fun origins' object u _ hobject h₄ => ?_
  obtain ⟨values, rfl, hvalues⟩ := hobject
  exact ⟨_, origins', rfl, h₄.setNode hget (.object hown hvalues)⟩

/-- What stands in a table is an object of the shape that the table is for. -/
theorem object_of_table (hb : c.IsBuilt) {table : ObjectTable}
    (htable : table ∈ c.module.objects.tables) {id : NodeId} (hid : id ∈ table.table.keys) :
    ∃ own, c.input.tree.shape? c.input.registry id = some own ∧
      c.module.HasNode c.input.tree c.input.registry id ∧
      table.shape.all (· = own) = true := by
  obtain ⟨shape, ht, hshape⟩ := hb.filled.wellShaped.exists_table? htable
  obtain ⟨own, hown, htogether, hobject⟩ := hb.object_of_mem_keys ht hid
  refine ⟨own, hown, (hasNode_object_iff hown).mpr hobject, ?_⟩
  cases hp : c.module.objects.partitioned with
  | true =>
      obtain rfl : shape = own := by simpa [ObjectTables.Together, hp] using htogether
      simp [hshape hp]
  | false =>
      obtain ⟨shared, htables⟩ := hb.filled.wellShaped.shared hp
      rw [htables, List.mem_singleton] at htable
      simp [htable]

/-- Every object of a table is read to its place. -/
theorem reads_table (hb : c.IsBuilt) (hr : c.input.registry.Valid) {before after : List ObjectTable}
    {table : ObjectTable} (htables : c.module.objects.tables = before ++ table :: after)
    (hfirst : first = (before.map (·.table.keys.length)).sum) {label : String}
    (h : c.writer.objectSection table.table = .ok tokens) :
    c.ReadsNodes first (first + table.table.keys.length)
      (c.decoder.readTable ⟨label, table.shape, first, table.table.keys.length⟩) tokens := by
  have hmem : table ∈ c.module.objects.tables := by simp [htables]
  obtain ⟨shape, ht, -⟩ := hb.filled.wellShaped.exists_table? hmem
  obtain ⟨order, horder, hlength⟩ := (hb.objects shape _ ht).order
  have hkeys : order.filterMap table.table.value? = table.table.keys := by
    rw [Table.keys, horder, Option.getD_some]
  have hlocates : c.Locates ⟨label, table.shape, first, table.table.keys.length⟩
      table.table.keys := locates_of_split htables hfirst rfl
  simp only [WriteInput.objectSection, Table.indexed, horder, Except.mapError, ok_bind, hkeys] at h
  obtain ⟨count, hcount, h₁⟩ := bind_eq_ok.mp h
  obtain ⟨parts, hparts, h₂⟩ := bind_eq_ok.mp h₁
  obtain rfl := Except.ok.inj h₂
  have hentries := mapM_eq_ok.mp hparts
  rw [hlength] at hcount
  refine reads_entries hentries.length_eq.symm hcount fun i part hpart => ?_
  obtain ⟨id, hkey, hwrite⟩ := getElem?_of_forall₂ hentries hpart
  obtain ⟨own, hown, hid, hshape⟩ := object_of_table hb hmem (List.mem_of_getElem? hkey)
  rw [Tree.shapeOf_eq_ok.mpr hown, ok_bind] at hwrite
  obtain ⟨marker, hmarker, h₃⟩ := bind_eq_ok.mp hwrite
  obtain ⟨fields, hfields, h₄⟩ := bind_eq_ok.mp h₃
  obtain rfl := Except.ok.inj h₄
  exact reads_tableEntry hb hr (hlocates.order i id hkey) hid hown hshape hmarker hfields

/-! ### Arrays

The elements of an array share one layout, that of their common tag, or each has its own tag in
front. -/

/-- Values that are written one after another are read by one step, repeated. -/
theorem reads_replicate {base : List NodeId} {step : Decode Value} {values : List Value}
    {parts : List (List Token)}
    (h : List.Forall₂ (fun value part => ∀ base, c.Reads base step part
      fun origins found => Copies c.rank origins value found) values parts) :
    c.Reads base (Decode.replicate values.length fun _ => step) parts.flatten
      fun origins found => List.Forall₂ (Copies c.rank origins) values found := by
  suffices ∀ (index : Nat) (base : List NodeId) (results : List Value),
      c.Reads base (Decode.replicate.go (fun _ => step) values.length index results) parts.flatten
        fun origins found => ∃ more, found = results.reverse ++ more ∧
          List.Forall₂ (Copies c.rank origins) values more by
    refine (this 0 base []).weaken fun origins found _ hfound => ?_
    obtain ⟨more, rfl, hmore⟩ := hfound
    exact hmore
  induction h with
  | nil => exact fun index base results => .pure fun _ _ => ⟨[], by simp, .nil⟩
  | @cons value part values parts hvalue _ ih =>
      intro index base results
      rw [List.length_cons, Decode.replicate.go, List.flatten_cons]
      refine (hvalue base).bind fun origins a _ ha => ?_
      -- the first value is a copy still when all others have been read
      intro p origins' rest s hbase hs
      obtain ⟨found, t, last, hrun, hgrow, ht, more, rfl, hmore⟩ :=
        ih (index + 1) origins (a :: results) p origins' rest s hbase hs
      exact ⟨_, t, last, hrun, hgrow, ht, a :: more, by simp,
        .cons (ha.mono (hbase.trans hgrow)) hmore⟩

theorem reads_elements (hb : c.IsBuilt) (hr : c.input.registry.Valid) {base : List NodeId}
    {id : NodeId} (hid : c.module.HasNode c.input.tree c.input.registry id)
    {elements : List Value} (harray : c.input.tree.array? id = some elements)
    (h : c.writer.arrayEntry id = .ok tokens) :
    ∃ more, tokens = WriteInput.plain (Varint.encodeUnsigned elements.length) :: more ∧
      c.Reads base (c.decoder.readElements elements.length) more
        fun origins found => List.Forall₂ (Copies c.rank origins) elements found := by
  simp only [WriteInput.arrayEntry, Tree.requireArray_eq_ok.mpr harray, ok_bind] at h
  cases elements with
  | nil =>
      obtain rfl := Except.ok.inj h
      exact ⟨[], rfl, .pure fun _ _ => .nil⟩
  | cons head tail =>
      obtain ⟨tag, htag, hlisted, hfits⟩ := hb.fits_elements hid harray
      simp only [List.isEmpty_cons, Bool.false_eq_true, if_false, htag] at h
      obtain ⟨marker, hmarker, h₁⟩ := bind_eq_ok.mp h
      obtain ⟨parts, hparts, h₂⟩ := bind_eq_ok.mp h₁
      obtain rfl := Except.ok.inj h₂
      refine ⟨marker :: parts.flatten, rfl, ?_⟩
      rw [DecodeInput.readElements, if_neg (by simp)]
      refine Reads.bind (x := [marker]) (reads_readTag hb hlisted hmarker)
        fun _ found _ hfound => ?_
      obtain rfl := hfound
      have hslots := (List.forall₂_and_left (head :: tail) parts).mpr
        ⟨fun _ hvalue => hvalue, mapM_eq_ok.mp hparts⟩
      refine reads_replicate (hslots.imp fun value part hwrite base => ?_)
      exact reads_slot hb (reads_objectFields hb hr) (hfits value hwrite.1) hwrite.2

/-- An array: its length, its elements, and its place. -/
theorem reads_array (hb : c.IsBuilt) (hr : c.input.registry.Valid) {index : Nat} {id : NodeId}
    (hget : c.order[c.objectCount + index]? = some id)
    (hid : c.module.HasNode c.input.tree c.input.registry id) {elements : List Value}
    (harray : c.input.tree.array? id = some elements) (hlength : elements.length < UInt32.size)
    (h : c.writer.arrayEntry id = .ok tokens) :
    c.ReadsNodes (c.objectCount + index) (c.objectCount + index + 1) (c.decoder.readArray index)
      tokens := by
  intro later file origins rest s hs
  obtain ⟨more, rfl, -⟩ := @reads_elements c tokens hb hr [] id hid elements harray h
  have hread := Read.takes_unsigned (Nat.lt_trans hlength (by decide))
  refine Reads.followed (x := [_]) (reads_fromSection (accepts_located hread)) hs
    fun _ located _ _ hlocated h₁ => ?_
  obtain ⟨offset, found⟩ := located
  obtain rfl : found = elements.length := hlocated
  refine Reads.followed (x := []) (reads_ensure hlength) h₁ fun origins' _ _ _ _ h₂ => ?_
  obtain ⟨_, htokens, helements⟩ := @reads_elements c _ hb hr origins' id hid elements harray h
  obtain rfl := (List.cons.inj htokens).2
  refine Reads.followed helements h₂ fun origins'' values u _ hvalues h₃ => ?_
  exact ⟨_, origins'', rfl, h₃.setNode hget (.array harray hvalues)⟩

/-- The array table is written as the number of arrays and one array after another. -/
theorem arraySection_eq_ok (hb : c.IsBuilt) (h : c.writer.arraySection = .ok tokens) :
    ∃ count parts, tokens = count :: parts.flatten ∧
      WriteInput.countToken "arrays" c.module.arrays.keys.length = .ok count ∧
      List.Forall₂ (fun id part => c.writer.arrayEntry id = .ok part) c.module.arrays.keys parts := by
  obtain ⟨order, horder, hlength, hkeys⟩ := hb.arrays.exists_indexed
  simp only [WriteInput.arraySection, horder, Except.mapError, ok_bind, hkeys] at h
  obtain ⟨count, hcount, h₁⟩ := bind_eq_ok.mp h
  obtain ⟨parts, hparts, h₂⟩ := bind_eq_ok.mp h₁
  obtain rfl := Except.ok.inj h₂
  exact ⟨count, parts, rfl, hlength ▸ hcount, mapM_eq_ok.mp hparts⟩

theorem length_order (c : Replay) :
    c.order.length = c.objectCount + c.module.arrays.keys.length := by
  rw [Replay.order, List.length_append, length_flatMap_keys]
  rfl

/-- Every array is read to its place. -/
theorem reads_arrays (hb : c.IsBuilt) (hr : c.input.registry.Valid)
    (hlength : ∀ id ∈ c.module.arrays.keys, ∀ elements, c.input.tree.array? id = some elements →
      elements.length < UInt32.size) (h : c.writer.arraySection = .ok tokens) :
    c.ReadsNodes c.objectCount c.order.length c.decoder.readArrays tokens := by
  obtain ⟨count, parts, rfl, hcount, hentries⟩ := arraySection_eq_ok hb h
  rw [length_order]
  refine reads_entries hentries.length_eq.symm hcount fun i part hpart => ?_
  obtain ⟨id, hkey, hwrite⟩ := getElem?_of_forall₂ hentries hpart
  have hmem := List.mem_of_getElem? hkey
  obtain ⟨harray, hid⟩ := hb.array_of_mem_keys hmem
  obtain ⟨elements, helements⟩ := Option.isSome_iff_exists.mp harray
  exact reads_array hb hr (getElem?_order_array hkey) hid helements (hlength id hmem elements helements)
    hwrite

/-! ### Arrays that are too long

The length of an array is read as a number of 64 bits and refused if it has more than 32. The writer
does not look at it, so a bound on lengths is a premise of reading back; this section is its
converse. -/

/-- An array that was read is not too long. -/
theorem length_lt_of_readArray (hb : c.IsBuilt) (hr : c.input.registry.Valid) {index : Nat}
    {id : NodeId} (hid : c.module.HasNode c.input.tree c.input.registry id) {elements : List Value}
    (harray : c.input.tree.array? id = some elements) (h : c.writer.arrayEntry id = .ok tokens)
    {p : Position} (hs : c.At p origins (tokens ++ rest) s) {r : Unit} {t : DecodeState}
    (hrun : c.decoder.readArray index s = .ok r t) : elements.length < UInt32.size := by
  obtain ⟨more, rfl, -⟩ := @reads_elements c tokens hb hr [] id hid elements harray h
  obtain ⟨hbody, -⟩ := hs.loaded.plain 0
  obtain ⟨⟨offset, length⟩, u, hread, h₁⟩ := run_bind_eq_ok.mp hrun
  obtain ⟨_, _, hensure, -⟩ := run_bind_eq_ok.mp h₁
  have hlt := (Decode.ensure_eq_ok.mp hensure).1
  obtain ⟨unread, hlocated, -⟩ := Decode.fromSection_eq_ok.mp hread
  obtain ⟨start, v, hoffset, h₂⟩ := run_bind_eq_ok.mp hlocated
  obtain ⟨-, rfl⟩ := EStateM.Result.ok.inj (Read.run_offset.symm.trans hoffset)
  obtain ⟨found, v, hunsigned, h₃⟩ := run_bind_eq_ok.mp h₂
  obtain ⟨heq, -⟩ := run_pure_eq_ok.mp h₃
  obtain ⟨-, rfl⟩ := Prod.mk.inj heq
  exact Read.eq_of_unsigned hbody hunsigned ▸ hlt

/-- Where the array table was read, no array is too long. -/
theorem lengths_of_readArrays (hb : c.IsBuilt) (hr : c.input.registry.Valid)
    (h : c.writer.arraySection = .ok tokens)
    (hs : c.At ⟨later, file, c.objectCount⟩ origins (tokens ++ rest) s) {r : Unit} {t : DecodeState}
    (hrun : c.decoder.readArrays s = .ok r t) :
    ∀ id ∈ c.module.arrays.keys, ∀ elements, c.input.tree.array? id = some elements →
      elements.length < UInt32.size := by
  obtain ⟨count, parts, rfl, hcount, hentries⟩ := arraySection_eq_ok hb h
  obtain ⟨_, u, hfirst, h₁⟩ := run_bind_eq_ok.mp hrun
  obtain ⟨items, v, hloop, -⟩ := run_bind_eq_ok.mp h₁
  obtain ⟨_, _, origins₁, hfound, -, hu, -⟩ :=
    @reads_count c [] "arrays" "arrays" _ _ hcount _ _ _ _ (List.nil_prefix) hs
  obtain ⟨-, rfl⟩ := EStateM.Result.ok.inj (hfirst.symm.trans hfound)
  -- up to every entry that is read, the arrays were read to their places
  obtain ⟨hdone, -, hall⟩ := Decode.replicate_induction
    (motive := fun done w => (∃ origins, c.At ⟨later, file, c.objectCount + done.length⟩ origins
        ((parts.drop done.length).flatten ++ rest) w) ∧
      ∀ id ∈ c.module.arrays.keys.take done.length, ∀ elements,
        c.input.tree.array? id = some elements → elements.length < UInt32.size)
    hloop ⟨⟨origins₁, hu⟩, by simp⟩ fun done w _ x hlt ⟨⟨origins, hw⟩, hlengths⟩ hstep => by
      have hlt' : done.length < parts.length := hentries.length_eq ▸ hlt
      rw [List.drop_eq_getElem_cons hlt', List.flatten_cons, List.append_assoc] at hw
      obtain ⟨id, hkey, hwrite⟩ := getElem?_of_forall₂ hentries (List.getElem?_eq_getElem hlt')
      obtain ⟨harray, hid⟩ := hb.array_of_mem_keys (List.mem_of_getElem? hkey)
      obtain ⟨elements, helements⟩ := Option.isSome_iff_exists.mp harray
      have hlength := length_lt_of_readArray hb hr hid helements hwrite hw hstep
      obtain ⟨y, last, hread, hy⟩ := reads_array hb hr (getElem?_order_array hkey) hid helements hlength
        hwrite _ _ _ _ _ hw
      obtain ⟨-, rfl⟩ := EStateM.Result.ok.inj (hstep.symm.trans hread)
      rw [List.length_append, List.length_singleton, ← Nat.add_assoc]
      refine ⟨⟨last, hy⟩, fun other hother others hothers => ?_⟩
      rw [List.take_add_one, hkey, Option.toList_some] at hother
      rcases List.mem_append.mp hother with hother | hother
      · exact hlengths other hother others hothers
      · obtain rfl := List.mem_singleton.mp hother
        obtain rfl := Option.some.inj (helements.symm.trans hothers)
        exact hlength
  rwa [hdone, List.take_length] at hall

end Replay

end Module

end SyntaxPack
