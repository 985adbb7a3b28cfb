import SyntaxPack.Proofs.Decode.Progress
/-!
# SyntaxPack.Proofs.Decode.Sections

What reading a section can do.

`Pays n s t` says that reading goes on from `s` to `t` and leaves at least `n`
bytes without a node of their own: `n` times a byte was taken and no node was
added. Every entry of an object table and every array pays for the node that was
set up for it, so that all nodes together are paid for in the end.
-/

namespace SyntaxPack

namespace Module

open DecodeState (Took Advance)

/-- From `s` to `t` no node is lost, and besides a byte for every node that is added
at least `n` bytes are taken. -/
structure DecodeState.Pays (n : Nat) (s t : DecodeState) : Prop where
  ascending : t.source.Ascending
  size : s.nodes.size ≤ t.nodes.size
  load : t.load + n ≤ s.load

namespace DecodeState.Pays

variable {m n : Nat} {s t u : DecodeState}

theorem refl (h : s.source.Ascending) : Pays 0 s s := ⟨h, Nat.le_refl _, Nat.le_refl _⟩

theorem trans (h₁ : Pays m s t) (h₂ : Pays n t u) : Pays (m + n) s u where
  ascending := h₂.ascending
  size := Nat.le_trans h₁.size h₂.size
  load := by
    have := h₁.load
    have := h₂.load
    omega

theorem mono (h : Pays n s t) (hm : m ≤ n) : Pays m s t :=
  ⟨h.ascending, h.size, by have := h.load; omega⟩

/-- There are fewer bytes left. -/
theorem left_le (h : Pays n s t) : t.left ≤ s.left := by
  have hload := h.load
  have hsize := h.size
  simp only [DecodeState.load] at hload
  omega

end DecodeState.Pays

open DecodeState (Pays)

theorem DecodeState.Took.pays {n : Nat} {s t : DecodeState} (h : Took n s t) : s.Pays n t where
  ascending := h.ascending
  size := Nat.le_of_eq (congrArg Array.size h.nodes.symm)
  load := by
    have := h.unread
    simp only [DecodeState.load, DecodeState.left, h.input, h.nodes]
    omega

theorem DecodeState.Advance.pays {s t : DecodeState} (h : s.Advance t) : s.Pays 0 t :=
  ⟨h.ascending, h.size_le, h.load⟩

variable {s t : DecodeState}

/-- Setting up a section and taking it out of the module loses its two lengths. -/
theorem pays_section {input body : Reader} (hs : s.source.Ascending)
    (h : Read.substream s.input = .ok body input) :
    s.Pays 0 { s with input := input, source := { s.source with body := body } } := by
  have := Read.remaining_of_substream h
  refine ⟨hs, Nat.le_refl _, ?_⟩
  simp only [DecodeState.load, DecodeState.left, StreamReader.unread_eq]
  omega

/-- Filling a place of the arena changes neither its size nor what is left. -/
theorem pays_setNode {n position : Nat} {node : Node} (h : s.Pays n t) :
    s.Pays n { t with nodes := t.nodes.setIfInBounds position node } :=
  ⟨h.ascending, by simpa using h.size, by simpa [DecodeState.load, DecodeState.left] using h.load⟩

/-- From `s` to `t` bytes are taken; the nodes and the references stay as they are. -/
structure DecodeState.Keeps (s t : DecodeState) : Prop where
  nodes : t.nodes = s.nodes
  shapeRefs : t.shapeRefs = s.shapeRefs
  pays : s.Pays 0 t

namespace DecodeState.Keeps

theorem refl (h : s.source.Ascending) : Keeps s s := ⟨rfl, rfl, .refl h⟩

theorem trans {u : DecodeState} (h₁ : Keeps s t) (h₂ : Keeps t u) : Keeps s u :=
  ⟨h₂.nodes.trans h₁.nodes, h₂.shapeRefs.trans h₁.shapeRefs, h₁.pays.trans h₂.pays⟩

end DecodeState.Keeps

open DecodeState (Keeps)

theorem DecodeState.Took.keeps {n : Nat} (h : Took n s t) : s.Keeps t :=
  ⟨h.nodes, h.shapeRefs, h.pays.mono (Nat.zero_le _)⟩

theorem Decode.keeps_fromInput {α : Type} {read : Read α} {a : α} (hs : s.source.Ascending)
    (hread : read.Consumes 0) (h : Decode.fromInput read s = .ok a t) : s.Keeps t := by
  obtain ⟨rest, hrun, rfl⟩ := Decode.fromInput_eq_ok.mp h
  have := hread.remaining_add_le hrun
  refine ⟨rfl, rfl, hs, Nat.le_refl _, ?_⟩
  simp only [DecodeState.load, DecodeState.left]
  omega

namespace DecodeInput

variable {input : DecodeInput}

/-! ### Value streams

Storing a stream takes it out of the module and keeps it whole, so its bytes are still to be read;
only what is around them is gone. -/

theorem readStream_eq_ok {index : Nat} {u : Unit} (hs : s.source.Ascending)
    (h : input.readStream index s = .ok u t) : Keeps s t := by
  obtain ⟨⟨offset, tag⟩, v, hread, h₁⟩ := run_bind_eq_ok.mp h
  have hv := Decode.keeps_fromInput hs
    ((consumes_located Read.consumes_nat32).mono (Nat.zero_le _)) hread
  obtain ⟨_, _, hensure, h₂⟩ := run_bind_eq_ok.mp h₁
  obtain ⟨-, rfl⟩ := Decode.ensure_eq_ok.mp hensure
  obtain ⟨stream, w, hstream, h₃⟩ := run_bind_eq_ok.mp h₂
  obtain ⟨rest, hrun, rfl⟩ := Decode.fromInput_eq_ok.mp hstream
  obtain ⟨_, _, hget, h₄⟩ := run_bind_eq_ok.mp h₃
  simp only [run_get, EStateM.Result.ok.injEq] at hget
  obtain ⟨rfl, rfl⟩ := hget
  obtain ⟨_, _, hmodify, h₅⟩ := run_bind_eq_ok.mp h₄
  simp only [run_modify, EStateM.Result.ok.injEq, true_and] at hmodify
  subst hmodify
  obtain ⟨-, rfl⟩ := Decode.check_eq_ok.mp h₅
  refine hv.trans ⟨rfl, rfl, hv.pays.ascending.insert tag stream, Nat.le_refl _, ?_⟩
  have := Read.remaining_of_substream hrun
  have hinsert := StreamReader.unread_insert_le hv.pays.ascending tag stream
  simp only [StreamReader.insert] at hinsert
  simp only [DecodeState.load, DecodeState.left]
  omega

theorem readStreams_eq_ok {u : Unit} (hs : s.source.Ascending)
    (h : input.readStreams s = .ok u t) : Keeps s t := by
  simp only [readStreams] at h
  split at h
  · obtain ⟨count, v, hcount, h₁⟩ := run_bind_eq_ok.mp h
    have hv := Decode.keeps_fromInput hs (Read.consumes_nat32.mono (Nat.zero_le _)) hcount
    obtain ⟨_, w, hmodify, h₂⟩ := run_bind_eq_ok.mp h₁
    simp only [run_modify, EStateM.Result.ok.injEq, true_and] at hmodify
    subst hmodify
    obtain ⟨_, w, hloop, h₃⟩ := run_bind_eq_ok.mp h₂
    obtain ⟨-, rfl⟩ := run_pure_eq_ok.mp h₃
    have hempty : Keeps v { v with source := { v.source with streams := some [] } } := by
      refine ⟨rfl, rfl, ?_, Nat.le_refl _, ?_⟩
      · intro map hmap
        obtain rfl := Option.some.inj hmap
        exact TagMap.ascending_nil
      · simp only [DecodeState.load, DecodeState.left, StreamReader.unread_eq, Option.getD_some,
          TagMap.total_nil]
        omega
    refine (hv.trans hempty).trans ?_
    exact (Decode.replicate_induction (motive := fun _ u => Keeps _ u) hloop
      (.refl hempty.pays.ascending)
      fun _ _ _ _ _ hu hstep => hu.trans (readStream_eq_ok hu.pays.ascending hstep)).2
  · obtain ⟨-, rfl⟩ := run_pure_eq_ok.mp h
    exact .refl hs

/-! ### Object tables

An entry starts with the token of its tag, and this is the byte that it pays with. What its fields
add they pay for themselves. -/

/-- An entry of an object table is read from `s` to `t`: its tag is taken up to
`u`, its fields are read up to `v`, and it is put into its place. -/
structure EntryRead (input : DecodeInput) (slots : ObjectSlots) (index : Nat)
    (s t : DecodeState) (shape : ShapeId) (object : Object) (u v : DecodeState) : Prop where
  shape_mem : .shape shape ∈ input.tags
  shape_eq : slots.shape = none ∨ slots.shape = some shape
  tag : Took 1 s u
  fields : input.objectFields shape u = .ok object v
  state_eq : t = { v with nodes := v.nodes.setIfInBounds (slots.first + index) (.object object) }

theorem readTableEntry_eq_ok {slots : ObjectSlots} {index : Nat} {r : Unit}
    (hs : s.source.Ascending) (h : input.readTableEntry slots index s = .ok r t) :
    ∃ shape object u v, EntryRead input slots index s t shape object u v := by
  obtain ⟨offset, w, hoffset, h₁⟩ := run_bind_eq_ok.mp h
  obtain ⟨-, rfl⟩ := Decode.offset_eq_ok.mp hoffset
  obtain ⟨tag, u, htag, h₂⟩ := run_bind_eq_ok.mp h₁
  obtain ⟨htook, hmem⟩ := readTag_eq_ok hs htag
  cases tag with
  | builtin b => simp at h₂
  | shape shape =>
      obtain ⟨_, _, hensure, h₃⟩ := run_bind_eq_ok.mp h₂
      obtain ⟨hshape, rfl⟩ := Decode.ensure_eq_ok.mp hensure
      obtain ⟨object, v, hfields, h₄⟩ := run_bind_eq_ok.mp h₃
      simp only [setNode, run_modify, EStateM.Result.ok.injEq, true_and] at h₄
      refine ⟨shape, object, _, v, hmem, ?_, htook, hfields, h₄.symm⟩
      cases hslots : slots.shape with
      | none => exact Or.inl rfl
      | some id => exact Or.inr (by simpa [hslots] using hshape)

theorem EntryRead.pays {slots : ObjectSlots} {index : Nat} {shape : ShapeId} {object : Object}
    {u v : DecodeState} (h : EntryRead input slots index s t shape object u v) : s.Pays 1 t := by
  have hv := objectFields_advances shape u object v h.tag.ascending h.fields
  rw [h.state_eq]
  exact pays_setNode (h.tag.pays.trans hv.pays)

/-- An object table is read entry by entry. -/
theorem readTable_eq_ok {slots : ObjectSlots} {r : Unit} (hs : s.source.Ascending)
    (h : input.readTable slots s = .ok r t) : ∃ u items, Took 4 s u ∧
      Decode.replicate slots.count (input.readTableEntry slots) u = .ok items t := by
  obtain ⟨_, u, hcount, h₁⟩ := run_bind_eq_ok.mp h
  obtain ⟨items, v, hloop, h₂⟩ := run_bind_eq_ok.mp h₁
  obtain ⟨-, rfl⟩ := run_pure_eq_ok.mp h₂
  exact ⟨u, items, Decode.took_count hs hcount, hloop⟩

theorem readTable_pays {slots : ObjectSlots} {r : Unit} (hs : s.source.Ascending)
    (h : input.readTable slots s = .ok r t) : s.Pays slots.count t := by
  obtain ⟨u, items, htook, hloop⟩ := readTable_eq_ok hs h
  have hentries := Decode.replicate_induction (motive := fun done v => u.Pays done.length v) hloop
    (.refl htook.ascending) fun done v _ w _ hv hstep => by
      obtain ⟨shape, object, x, y, hentry⟩ := readTableEntry_eq_ok hv.ascending hstep
      simpa using hv.trans hentry.pays
  rw [hentries.1] at hentries
  exact (htook.pays.trans hentries.2).mono (by omega)

/-! ### Arrays

An array pays with its length. An array without elements has nothing else. -/

theorem readElements_eq_ok {length : Nat} {elements : List Value} (hs : s.source.Ascending)
    (h : input.readElements length s = .ok elements t) :
    (length = 0 ∧ elements = [] ∧ t = s) ∨ ∃ tag u, tag ∈ input.tags ∧ Took 1 s u ∧
      Decode.replicate length (fun _ => input.slot input.objectFields
        (Codec.ofElement tag input.wire.partitionedTables)) u = .ok elements t := by
  simp only [readElements] at h
  split at h
  · rename_i hzero
    obtain ⟨rfl, rfl⟩ := run_pure_eq_ok.mp h
    exact Or.inl ⟨hzero, rfl, rfl⟩
  · obtain ⟨tag, u, htag, h₁⟩ := run_bind_eq_ok.mp h
    obtain ⟨htook, hmem⟩ := readTag_eq_ok hs htag
    exact Or.inr ⟨tag, u, hmem, htook, h₁⟩

theorem readElements_advance {length : Nat} {elements : List Value} (hs : s.source.Ascending)
    (h : input.readElements length s = .ok elements t) : s.Advance t := by
  rcases readElements_eq_ok hs h with ⟨-, -, rfl⟩ | ⟨tag, u, -, htook, hloop⟩
  · exact .refl hs
  · refine htook.advance.trans (Decode.replicate_induction
      (motive := fun _ v => u.Advance v) hloop (.refl htook.ascending) ?_).2
    intro _ v _ w _ hv hslot
    exact hv.trans (slot_advance hv.ascending objectFields_advances hslot)

/-- An array is read from `s` to `t`: its length is taken up to `u`, its elements
are read up to `v`, and it is put into its place. -/
theorem readArray_eq_ok {index : Nat} {r : Unit} (hs : s.source.Ascending)
    (h : input.readArray index s = .ok r t) : ∃ length elements u v, Took 1 s u ∧
      length < UInt32.size ∧ input.readElements length u = .ok elements v ∧
      t = { v with
        nodes := v.nodes.setIfInBounds (input.firstArray + index) (.array elements) } := by
  obtain ⟨⟨offset, length⟩, u, hread, h₁⟩ := run_bind_eq_ok.mp h
  have htook := Decode.took_fromSection hs (consumes_located Read.consumes_unsigned) hread
  obtain ⟨_, _, hensure, h₂⟩ := run_bind_eq_ok.mp h₁
  obtain ⟨hlength, rfl⟩ := Decode.ensure_eq_ok.mp hensure
  obtain ⟨elements, v, helements, h₃⟩ := run_bind_eq_ok.mp h₂
  simp only [setNode, run_modify, EStateM.Result.ok.injEq, true_and] at h₃
  exact ⟨length, elements, _, v, htook, by simpa using hlength, helements, h₃.symm⟩

theorem readArray_pays {index : Nat} {r : Unit} (hs : s.source.Ascending)
    (h : input.readArray index s = .ok r t) : s.Pays 1 t := by
  obtain ⟨length, elements, u, v, htook, -, helements, rfl⟩ := readArray_eq_ok hs h
  have hv := readElements_advance htook.ascending helements
  exact pays_setNode (htook.pays.trans hv.pays)

theorem readArrays_eq_ok {r : Unit} (hs : s.source.Ascending)
    (h : input.readArrays s = .ok r t) : ∃ u items, Took 4 s u ∧
      Decode.replicate input.arrayCount input.readArray u = .ok items t := by
  obtain ⟨_, u, hcount, h₁⟩ := run_bind_eq_ok.mp h
  obtain ⟨items, v, hloop, h₂⟩ := run_bind_eq_ok.mp h₁
  obtain ⟨-, rfl⟩ := run_pure_eq_ok.mp h₂
  exact ⟨u, items, Decode.took_count hs hcount, hloop⟩

theorem readArrays_pays {r : Unit} (hs : s.source.Ascending)
    (h : input.readArrays s = .ok r t) : s.Pays input.arrayCount t := by
  obtain ⟨u, items, htook, hloop⟩ := readArrays_eq_ok hs h
  have harrays := Decode.replicate_induction (motive := fun done v => u.Pays done.length v) hloop
    (.refl htook.ascending) fun done v _ w _ hv hstep => by
      simpa using hv.trans (readArray_pays hv.ascending hstep)
  rw [harrays.1] at harrays
  exact (htook.pays.trans harrays.2).mono (by omega)

/-! ### All sections

The sections follow one another, and what they pay for adds up to the nodes that were set up. -/

/-- The sections are read one after another. -/
theorem readSections_eq_ok {root : Value} (h : input.readSections s = .ok root t) :
    ∃ u v w, input.readStreams s = .ok () u ∧
      input.tables.forM (fun slots => Decode.inSection slots.label (input.readTable slots)) u =
        .ok ⟨⟩ v ∧
      Decode.inSection "arrays" input.readArrays v = .ok () w ∧
      Decode.inSection "root" (input.slot input.objectFields (.tagged .any)) w = .ok root t ∧
      t.source.expectEnd = .ok () := by
  obtain ⟨_, u, hstreams, h₁⟩ := run_bind_eq_ok.mp h
  obtain ⟨_, v, htables, h₂⟩ := run_bind_eq_ok.mp h₁
  obtain ⟨_, w, harrays, h₃⟩ := run_bind_eq_ok.mp h₂
  obtain ⟨value, x, hroot, h₄⟩ := run_bind_eq_ok.mp h₃
  obtain ⟨_, _, hget, h₅⟩ := run_bind_eq_ok.mp h₄
  simp only [run_get, EStateM.Result.ok.injEq] at hget
  obtain ⟨rfl, rfl⟩ := hget
  obtain ⟨_, _, hcheck, h₆⟩ := run_bind_eq_ok.mp h₅
  obtain ⟨hend, rfl⟩ := Decode.check_eq_ok.mp hcheck
  obtain ⟨rfl, rfl⟩ := run_pure_eq_ok.mp h₆
  exact ⟨u, v, w, hstreams, htables, harrays, hroot, hend⟩

/-- The number of objects in tables. -/
def tableEntries (input : DecodeInput) : Nat := (input.tables.map ObjectSlots.count).sum

/-- Every node of a table is paid for with a byte of its own. -/
theorem readSections_pays {root : Value} (hs : s.source.Ascending)
    (h : input.readSections s = .ok root t) :
    s.Pays (input.tableEntries + input.arrayCount) t := by
  obtain ⟨u, v, w, hstreams, htables, harrays, hroot, -⟩ := readSections_eq_ok h
  have hu := (readStreams_eq_ok hs hstreams).pays
  have hv : u.Pays input.tableEntries v :=
    run_forM_induction (motive := fun (done : List ObjectSlots) v =>
      u.Pays (done.map ObjectSlots.count).sum v) htables (.refl hu.ascending) fun done slots _ v w _ hv hstep => by
        obtain ⟨body, rest, hread, htable, -⟩ := Decode.inSection_eq_ok.mp hstep
        have hstart := pays_section hv.ascending hread
        have hw := hstart.trans (readTable_pays hstart.ascending htable)
        simpa using hv.trans hw
  obtain ⟨body, rest, hread, hcontent, -⟩ := Decode.inSection_eq_ok.mp harrays
  have hstart := pays_section hv.ascending hread
  have hw := hstart.trans (readArrays_pays hstart.ascending hcontent)
  obtain ⟨body', rest', hread', hslot, -⟩ := Decode.inSection_eq_ok.mp hroot
  have hstart' := pays_section hw.ascending hread'
  have ht := (slot_advance hstart'.ascending objectFields_advances hslot).pays
  exact (((hu.trans hv).trans hw).trans (hstart'.trans ht)).mono (by omega)

end DecodeInput

end Module

end SyntaxPack
