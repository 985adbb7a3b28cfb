import SyntaxPack.Proofs.Decode.Setup
/-!
# SyntaxPack.Proofs.Decode.Totality

Decoding ends, stays within its tables, and makes no more nodes than it is given
bytes.

The decoder limits how deep objects nest by the number of bytes of the module. The
limit only makes the recursion structural: any larger one gives the same run
(`readSections_resize`), so no module is ever rejected because of it.
-/

namespace SyntaxPack

namespace Module

open DecodeState (Took Advance Pays)

namespace DecodeInput

variable {input : DecodeInput} {s t : DecodeState} {size : Nat}

/-! ### Any larger bound gives the same run -/

/-- The same input with another bound on how deep objects nest. -/
abbrev resize (input : DecodeInput) (size : Nat) : DecodeInput := { input with size := size }

/-- There are no more bytes left than the bound on nesting allows for. -/
structure Covers (input : DecodeInput) (s : DecodeState) : Prop where
  ascending : s.source.Ascending
  left_le : s.left ≤ input.size

theorem Covers.pays {n : Nat} (h : input.Covers s) (ht : s.Pays n t) : input.Covers t :=
  ⟨ht.ascending, Nat.le_trans ht.left_le h.left_le⟩

theorem Covers.unread_le (h : input.Covers s) : s.source.unread ≤ input.size :=
  Nat.le_trans (Nat.le_add_left _ _) h.left_le

theorem fieldsWithin_resize (size depth : Nat) (shape : ShapeId) :
    (input.resize size).fieldsWithin depth shape = input.fieldsWithin depth shape := by
  induction depth generalizing shape with
  | zero => rfl
  | succ depth ih =>
      have hfields : (input.resize size).fieldsWithin depth = input.fieldsWithin depth :=
        funext ih
      simp only [fieldsWithin, hfields]
      rfl

theorem objectFields_resize {shape : ShapeId} (hs : input.Covers s) (hsize : input.size ≤ size) :
    (input.resize size).objectFields shape s = input.objectFields shape s := by
  have hunread := hs.unread_le
  simp only [objectFields, fieldsWithin_resize]
  exact fieldsWithin_eq hs.ascending (by omega) (by omega)

/-- A slot is the same under any larger bound, which only the fields of objects in
place depend on. -/
theorem slot_resize {codec : Codec} (hs : input.Covers s) (hsize : input.size ≤ size) :
    (input.resize size).slot (input.resize size).objectFields codec s =
      input.slot input.objectFields codec s := by
  have hslot : (input.resize size).slot (input.resize size).objectFields codec s =
      input.slot (input.resize size).objectFields codec s := rfl
  rw [hslot]
  exact slot_congr hs.ascending fun shape u _ hu _ => objectFields_resize (hs.pays hu.pays) hsize

theorem readTableEntry_resize {slots : ObjectSlots} {index : Nat} (hs : input.Covers s)
    (hsize : input.size ≤ size) :
    (input.resize size).readTableEntry slots index s = input.readTableEntry slots index s := by
  refine run_bind_congr fun offset u hoffset => ?_
  obtain ⟨-, rfl⟩ := Decode.offset_eq_ok.mp hoffset
  refine run_bind_congr fun tag u htag => ?_
  obtain ⟨htook, -⟩ := readTag_eq_ok hs.ascending htag
  cases tag with
  | builtin b => rfl
  | shape shape =>
      refine run_bind_congr fun _ v hensure => ?_
      obtain ⟨-, rfl⟩ := Decode.ensure_eq_ok.mp hensure
      have hfields : (input.resize size).objectFields shape v = input.objectFields shape v :=
        objectFields_resize (hs.pays htook.pays) hsize
      simp only [bind, EStateM.bind, hfields]

theorem readTable_resize {slots : ObjectSlots} (hs : input.Covers s) (hsize : input.size ≤ size) :
    (input.resize size).readTable slots s = input.readTable slots s := by
  refine run_bind_congr fun _ u hcount => ?_
  have hu := hs.pays (Decode.took_count hs.ascending hcount).pays
  have hloop : Decode.replicate slots.count ((input.resize size).readTableEntry slots) u =
      Decode.replicate slots.count (input.readTableEntry slots) u := by
    refine Decode.replicate_congr (motive := fun _ v => input.Covers v) hu
      (fun _ _ _ hv => readTableEntry_resize hv hsize) fun _ v _ w _ hv hstep => ?_
    rw [readTableEntry_resize hv hsize] at hstep
    obtain ⟨shape, object, x, y, hentry⟩ := readTableEntry_eq_ok hv.ascending hstep
    exact hv.pays hentry.pays
  simp only [bind, EStateM.bind, hloop]

theorem readElements_resize {length : Nat} (hs : input.Covers s) (hsize : input.size ≤ size) :
    (input.resize size).readElements length s = input.readElements length s := by
  simp only [readElements]
  split
  · rfl
  · refine run_bind_congr fun tag u htag => ?_
    obtain ⟨htook, -⟩ := readTag_eq_ok hs.ascending htag
    refine Decode.replicate_congr (motive := fun _ v => input.Covers v) (hs.pays htook.pays)
      (fun _ _ _ hv => slot_resize hv hsize) fun _ v _ w _ hv hstep => ?_
    rw [slot_resize hv hsize] at hstep
    exact hv.pays (slot_advance hv.ascending objectFields_advances hstep).pays

theorem readArray_resize {index : Nat} (hs : input.Covers s) (hsize : input.size ≤ size) :
    (input.resize size).readArray index s = input.readArray index s := by
  refine run_bind_congr fun p u hread => ?_
  have hu := Decode.took_fromSection hs.ascending (consumes_located Read.consumes_unsigned) hread
  refine run_bind_congr fun _ v hensure => ?_
  obtain ⟨-, rfl⟩ := Decode.ensure_eq_ok.mp hensure
  have helements : (input.resize size).readElements p.2 v = input.readElements p.2 v :=
    readElements_resize (hs.pays hu.pays) hsize
  simp only [bind, EStateM.bind, helements]

theorem readArrays_resize (hs : input.Covers s) (hsize : input.size ≤ size) :
    (input.resize size).readArrays s = input.readArrays s := by
  refine run_bind_congr fun _ u hcount => ?_
  have hu := hs.pays (Decode.took_count hs.ascending hcount).pays
  have hloop : Decode.replicate input.arrayCount (input.resize size).readArray u =
      Decode.replicate input.arrayCount input.readArray u := by
    refine Decode.replicate_congr (motive := fun _ v => input.Covers v) hu
      (fun _ _ _ hv => readArray_resize hv hsize) fun _ v _ w _ hv hstep => ?_
    rw [readArray_resize hv hsize] at hstep
    exact hv.pays (readArray_pays hv.ascending hstep)
  simp only [bind, EStateM.bind, hloop]

theorem inSection_congr {α : Type} {label : String} {f g : Decode α} (hs : s.source.Ascending)
    (h : ∀ u, s.Pays 0 u → f u = g u) :
    Decode.inSection label f s = Decode.inSection label g s := by
  refine run_bind_congr fun body u hread => ?_
  obtain ⟨rest, hrun, rfl⟩ := Decode.fromInput_eq_ok.mp hread
  refine run_bind_congr fun _ v hmodify => ?_
  obtain rfl : { s with input := rest, source := { s.source with body := body } } = v := by
    simpa using hmodify
  exact run_bind_congr_of_eq (h _ (pays_section hs hrun)) fun _ _ _ => rfl

/-- Under any bound on nesting that is not below the number of bytes, the sections
are read in the same way. -/
theorem readSections_resize (hs : input.Covers s) (hsize : input.size ≤ size) :
    (input.resize size).readSections s = input.readSections s := by
  refine run_bind_congr fun _ u hstreams => ?_
  have hkeeps : s.Keeps u := @readStreams_eq_ok s u input ⟨⟩ hs.ascending hstreams
  have hu := hs.pays hkeeps.pays
  have htable : ∀ (slots : ObjectSlots) (v : DecodeState), input.Covers v →
      Decode.inSection slots.label ((input.resize size).readTable slots) v =
        Decode.inSection slots.label (input.readTable slots) v := fun slots v hv =>
    inSection_congr hv.ascending fun w hw => readTable_resize (hv.pays hw) hsize
  have hnext : ∀ (slots : ObjectSlots) (v w : DecodeState), input.Covers v →
      Decode.inSection slots.label (input.readTable slots) v = .ok ⟨⟩ w → input.Covers w := by
    intro slots v w hv hstep
    obtain ⟨body, rest, hread, hrun, -⟩ := Decode.inSection_eq_ok.mp hstep
    have hstart := pays_section hv.ascending hread
    exact hv.pays (hstart.trans (readTable_pays hstart.ascending hrun))
  refine run_bind_congr_of_eq (run_forM_congr (motive := fun v => input.Covers v) hu
    (fun slots v _ hv => htable slots v hv)
    fun slots v w _ hv hstep => hnext slots v w hv (htable slots v hv ▸ hstep)) fun _ v hv => ?_
  have hv := run_forM_induction (motive := fun _ w => input.Covers w) hv hu
    fun _ slots _ v w _ hv hstep => hnext slots v w hv hstep
  refine run_bind_congr_of_eq (inSection_congr hv.ascending fun w hw =>
    readArrays_resize (hv.pays hw) hsize) fun _ w hw => ?_
  obtain ⟨body, rest, hread, hrun, -⟩ := Decode.inSection_eq_ok.mp hw
  have hstart := pays_section hv.ascending hread
  have hw := hv.pays (hstart.trans (readArrays_pays hstart.ascending hrun))
  exact run_bind_congr_of_eq (inSection_congr hw.ascending fun x hx =>
    slot_resize (hw.pays hx) hsize) fun _ _ _ => rfl

/-! ### Indices and nodes -/

/-- How the sections of a module are read from `s`: within the tables, by a recursion
that every object in place takes a byte closer to its end, and without regard to the
bound on nesting. -/
structure ReadsWithin (input : DecodeInput) (s : DecodeState) : Prop where
  inRange : input.InRange s.nodes.size
  recursion : ∀ shape u, u.source.Ascending → u.source.unread ≤ input.size →
    input.objectFields shape u = input.fieldSlots input.objectFields shape u
  decreasing : ∀ f g codec u, u.source.Ascending →
    (∀ shape v, .shape shape ∈ input.tags → v.source.unread < u.source.unread →
      f shape v = g shape v) → input.slot f codec u = input.slot g codec u
  unbounded : ∀ size ≥ input.size, (input.resize size).readSections s = input.readSections s
  growing : ∀ root t, input.readSections s = .ok root t → s.nodes.size ≤ t.nodes.size

theorem readsWithin_of_setUp {registry : Registry} {bytes : List UInt8} (hr : registry.Valid)
    (h : SetUp registry bytes input s) : input.ReadsWithin s where
  inRange := inRange_of_setUp hr h
  recursion _ _ hu hunread := objectFields_eq hu hunread
  decreasing _ _ _ _ hu hagree := slot_congr hu fun shape v hmem _ hlt => hagree shape v hmem hlt
  unbounded _ hsize := readSections_resize ⟨h.ascending, h.size_eq ▸ h.left_le⟩ hsize
  growing _ _ hsections := (readSections_pays h.ascending hsections).size

end DecodeInput

/-- A decoded tree has no more nodes than the module has bytes. -/
theorem size_le_of_decode {registry : Registry} {bytes : List UInt8} {tree : Tree}
    (h : decode bytes registry = .ok tree) : tree.size ≤ bytes.length := by
  obtain ⟨input, s, root, t, hsetUp, hsections, rfl, -⟩ := decode_eq_ok h
  have hload := (DecodeInput.readSections_pays hsetUp.ascending hsections).load
  have hleft := hsetUp.left_le
  obtain ⟨hentries, hsize⟩ := hsetUp.tableEntries_eq
  simp only [DecodeState.load] at hload
  simp only [Tree.size]
  omega

/-- Decoding ends for all bytes. The counts of a directory add up within 64 bits; the
sections are read within their tables, by a recursion that takes a byte at every
object in place; and a decoded tree has no more nodes than the module has bytes. -/
theorem decode_total {description : RegistryDescription} {registry : Registry}
    (hbuild : description.build = .ok registry) :
    (∀ wire r directory r', readDirectory wire r = .ok directory r' →
      directory.objectEntries < UInt64.size ∧ directory.nodeEntries < UInt64.size) ∧
    ∀ bytes : List UInt8,
      (∀ input s, readInput registry (Decode.start bytes) = .ok input s →
        input.size = bytes.length ∧ input.ReadsWithin s) ∧
      ∀ tree, decode bytes registry = .ok tree → tree.size ≤ bytes.length := by
  have hr := RegistryDescription.valid_of_build hbuild
  refine ⟨fun wire r directory r' h => ?_, fun bytes => ⟨fun input s h => ?_, fun tree h => ?_⟩⟩
  · obtain ⟨hle, hlt⟩ := (counts32_of_readDirectory h).nodeEntries_lt
    exact ⟨Nat.lt_of_le_of_lt hle hlt, hlt⟩
  · have hsetUp := setUp_of_readInput h
    exact ⟨hsetUp.size_eq, DecodeInput.readsWithin_of_setUp hr hsetUp⟩
  · exact size_le_of_decode h

theorem pairsTree_size_le : RegistryDescription.pairs.build = .ok .pairs ∧
    decode pairsInPlace .pairs = .ok .pairs ∧ Tree.pairs.size ≤ pairsInPlace.length :=
  ⟨Registry.build_pairs, decode_pairsInPlace,
    ((decode_total Registry.build_pairs).2 pairsInPlace).2 .pairs decode_pairsInPlace⟩

end Module

end SyntaxPack
