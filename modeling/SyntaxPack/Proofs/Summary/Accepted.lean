import SyntaxPack.Module.Summary
import SyntaxPack.Proofs.Decode.Setup
import SyntaxPack.Proofs.Decode.Streams
/-!
# SyntaxPack.Proofs.Summary.Accepted

Whatever is decoded can be summarized.

The decoder looks into every substream, and the summary steps over all of them; both go
from one to the next in the same way, because the content of a section is read from the
section alone. So the summary of a module that is decoded exists, and it shows the counts
that the decoder set up its tables with. Where objects cannot stand in place, no node
is added to those of the tables.
-/

namespace SyntaxPack

namespace Read

variable {α : Type} {read : Read α} {r r' r'' : Reader} {items : List α} {a : α} {count : Nat}

/-- One more item is read behind those that were read. -/
theorem replicate_succ_eq_ok (h : replicate count read r = .ok items r')
    (hlast : read r' = .ok a r'') :
    replicate (count + 1) read r = .ok (items ++ [a]) r'' := by
  suffices ∀ (done : List α) (r : Reader), replicate.go read count done r = .ok items r' →
      replicate.go read (count + 1) done r = .ok (items ++ [a]) r'' from this [] r h
  clear h
  induction count with
  | zero =>
      intro done r h
      obtain ⟨rfl, rfl⟩ := run_pure_eq_ok.mp h
      rw [replicate.go, run_bind_of_ok hlast, replicate.go, List.reverse_cons]
      rfl
  | succ count ih =>
      intro done r h
      obtain ⟨b, t, hread, hrest⟩ := run_bind_eq_ok.mp h
      rw [replicate.go, run_bind_of_ok hread]
      exact ih (b :: done) t hrest

end Read

/-- A table in a summary is one that the decoder sets up: it has as many entries, and if it
has a tag, that is the tag of their shape. -/
structure TableSummary.Shows (tags : Array Tag) (table : TableSummary)
    (slots : Module.ObjectSlots) : Prop where
  count : table.count = slots.count
  shapeTag : table.shapeTag = none ∧ slots.shape = none ∨ ∃ index id, table.shapeTag = some index ∧
    tags[index]? = some (.shape id) ∧ slots.shape = some id

/-- A summary shows what the decoder knows of a module once its tables are set up. -/
structure Summary.Agrees (summary : Summary) (input : Module.DecodeInput) : Prop where
  wire : summary.wire = input.wire
  tags : summary.tags = input.tags.size
  strings : summary.strings = input.strings.size
  arrays : summary.arrays = input.arrayCount
  tables : List.Forall₂ (TableSummary.Shows input.tags) summary.objectTables input.tables
  streams_lt : ∀ stream ∈ summary.valueStreams, stream.1 < input.tags.size
  streams_ne : (summary.valueStreams.map (·.1)).Pairwise (· ≠ ·)

namespace Summary

theorem run_substreamLength {r r' body : Reader} (h : Read.substream r = .ok body r') :
    substreamLength r = .ok body.remaining r' := by
  rw [substreamLength, run_bind_of_ok h]
  rfl

theorem run_readTable {r r' body : Reader} (entry : Option Nat × Nat)
    (h : Read.substream r = .ok body r') :
    readTable entry r = .ok ⟨entry.1, entry.2, body.remaining⟩ r' := by
  rw [readTable, run_bind_of_ok (run_substreamLength h)]
  rfl

theorem run_readStream {r r' r'' body : Reader} {tag : Nat} (htag : Read.nat32 r = .ok tag r')
    (h : Read.substream r' = .ok body r'') : readStream r = .ok (tag, body.remaining) r'' := by
  rw [readStream, run_bind_of_ok htag, run_bind_of_ok (run_substreamLength h)]
  rfl

/-- The value streams, if the layout has them. -/
def readStreams (valueStreams : Bool) : Read (List (Nat × Nat)) :=
  if valueStreams then do Read.replicate (← Read.nat32) readStream else pure []

/-- The parts of a summary are read one after another, up to the end of the module. -/
theorem run_read {wire : WireFormat} {directory : Module.Directory} {tags strings arrays root : Nat}
    {streams : List (Nat × Nat)} {tables : List TableSummary}
    {r r₁ r₂ r₃ r₄ r₅ r₆ r₇ r₈ : Reader} (totalBytes : Nat)
    (hwire : Module.readHeader r = .ok wire r₁)
    (hdirectory : Module.readDirectory wire r₁ = .ok directory r₂)
    (htags : substreamLength r₂ = .ok tags r₃) (hstrings : substreamLength r₃ = .ok strings r₄)
    (hstreams : readStreams wire.valueStreams r₄ = .ok streams r₅)
    (htables : directory.objects.entries.mapM readTable r₅ = .ok tables r₆)
    (harrays : substreamLength r₆ = .ok arrays r₇) (hroot : substreamLength r₇ = .ok root r₈)
    (hend : r₈.expectEnd "module" = .ok ()) :
    read totalBytes r = .ok
      { wire := wire, tags := directory.tags, strings := directory.strings,
        arrays := directory.arrays, objectTables := tables, valueStreams := streams,
        sections := [("tags", tags), ("strings", strings), ("arrays", arrays), ("root", root)],
        totalBytes := totalBytes } r₈ := by
  rw [read, run_bind_of_ok hwire, run_bind_of_ok hdirectory, run_bind_of_ok htags,
    run_bind_of_ok hstrings]
  unfold readStreams at hstreams
  split at hstreams
  · rename_i hon
    obtain ⟨count, t, hcount, hloop⟩ := run_bind_eq_ok.mp hstreams
    simp only [hon, if_true]
    rw [run_bind_of_ok hcount, run_bind_of_ok hloop, run_bind_of_ok htables, run_bind_of_ok harrays,
      run_bind_of_ok hroot, run_bind_of_ok run_get, hend]
    rfl
  · rename_i hoff
    simp only [hoff, Bool.false_eq_true, if_false]
    rw [run_bind_of_ok hstreams, run_bind_of_ok htables, run_bind_of_ok harrays,
      run_bind_of_ok hroot, run_bind_of_ok run_get, hend]
    rfl

end Summary

theorem inspect_of_read {bytes : List UInt8} {summary : Summary} {r : Reader}
    (h : Summary.read bytes.length (.ofBytes bytes) = .ok summary r) :
    inspect bytes = .ok summary := by
  simp only [inspect, EStateM.run, h]

namespace Module

open DecodeState (Took Advance)

variable {registry : Registry} {s t u : DecodeState} {input : DecodeInput}

/-! ### The content of a section

Reading the content of a section goes on in the section and in the value streams, but not in what
stands behind it. And it adds nodes only where an object stands in place. `Fills` says both, and is
kept by every step of the decoder within a section. -/

/-- From `s` to `t` a node is added only if objects can stand in place, and none is lost. -/
structure DecodeState.Grows (input : DecodeInput) (s t : DecodeState) : Prop where
  ascending : t.source.Ascending
  size_le : s.nodes.size ≤ t.nodes.size
  size_eq : input.wire.inlineObjects = false → t.nodes.size = s.nodes.size

/-- From `s` to `t` the content of a section is read, and nothing of what stands behind
the section. -/
structure DecodeState.Fills (input : DecodeInput) (s t : DecodeState) : Prop
    extends DecodeState.Grows input s t where
  input_eq : t.input = s.input

open DecodeState (Grows Fills)

theorem DecodeState.Grows.refl (h : s.source.Ascending) : Grows input s s :=
  ⟨h, Nat.le_refl _, fun _ => rfl⟩

theorem DecodeState.Grows.trans (h₁ : Grows input s t) (h₂ : Grows input t u) :
    Grows input s u where
  ascending := h₂.ascending
  size_le := Nat.le_trans h₁.size_le h₂.size_le
  size_eq hplace := (h₂.size_eq hplace).trans (h₁.size_eq hplace)

namespace DecodeState.Fills

theorem refl (h : s.source.Ascending) : Fills input s s := ⟨.refl h, rfl⟩

theorem trans (h₁ : Fills input s t) (h₂ : Fills input t u) : Fills input s u :=
  ⟨h₁.toGrows.trans h₂.toGrows, h₂.input_eq.trans h₁.input_eq⟩

/-- Putting a node into its place changes neither the number of nodes nor what is unread. -/
theorem setNode (h : Fills input s t) (position : Nat) (node : Node) :
    Fills input s { t with nodes := t.nodes.setIfInBounds position node } :=
  ⟨⟨h.ascending, by simpa using h.size_le, by simpa using h.size_eq⟩, h.input_eq⟩

end DecodeState.Fills

theorem DecodeState.Took.fills {n : Nat} (h : Took n s t) : Fills input s t :=
  ⟨⟨h.ascending, Nat.le_of_eq (by rw [h.nodes]), fun _ => by rw [h.nodes]⟩, h.input⟩

/-- A step forward that adds no node unless objects can stand in place. -/
theorem DecodeState.Advance.fills (h : s.Advance t)
    (hnodes : input.wire.inlineObjects = false → t.nodes = s.nodes) : Fills input s t :=
  ⟨⟨h.ascending, h.size_le, fun hplace => by rw [hnodes hplace]⟩, h.input⟩

namespace DecodeInput

theorem objectSlot_nodes {readFields : ShapeId → Decode Object} {expected : Option ShapeId}
    {nullable : Bool} {value : Value} (hplace : input.wire.inlineObjects = false)
    (hs : s.source.Ascending)
    (h : input.objectSlot readFields expected nullable s = .ok value t) : t.nodes = s.nodes := by
  rcases objectSlot_cases hs h with ⟨-, -, htook⟩ | ⟨index, offset, u, htook, href⟩ |
    ⟨shape, object, u, v, hinPlace⟩
  · exact htook.nodes
  · obtain ⟨-, -, rfl⟩ := objectRef_eq_ok.mp href
    exact htook.nodes
  · exact absurd (hplace.symm.trans hinPlace.inlined) Bool.false_ne_true

theorem underTag_nodes {readFields : ShapeId → Decode Object} {tag : Tag} {nullable : Bool}
    {value : Value} (hplace : input.wire.inlineObjects = false) (hs : s.source.Ascending)
    (h : input.underTag readFields tag nullable s = .ok value t) : t.nodes = s.nodes := by
  rcases underTag_cases hs h with ⟨-, htook⟩ | ⟨expected, -, hslot⟩
  · exact htook.nodes
  · exact objectSlot_nodes hplace hs hslot

/-- A slot adds nodes only for objects in place. -/
theorem slot_fills {readFields : ShapeId → Decode Object} {codec : Codec} {value : Value}
    (hs : s.source.Ascending) (hfields : Advances readFields)
    (h : input.slot readFields codec s = .ok value t) : Fills input s t := by
  refine (slot_advance hs hfields h).fills fun hplace => ?_
  rcases slot_cases hs h with ⟨decl, tag, u, -, -, -, -, htook, hunder⟩ | ⟨tag, nullable, -, hunder⟩
  · exact (underTag_nodes hplace htook.ascending hunder).trans htook.nodes
  · exact underTag_nodes hplace hs hunder

theorem objectFields_fills {shape : ShapeId} {object : Object} (hs : s.source.Ascending)
    (h : input.objectFields shape s = .ok object t) : Fills input s t := by
  obtain ⟨values, hvalues, -⟩ := fieldSlots_eq_ok.mp h
  exact run_mapM_induction (motive := fun _ _ u => Fills input s u) hvalues (.refl hs)
    fun _ _ _ _ u v _ hu hslot =>
      hu.trans (slot_fills hu.ascending (fieldsWithin_advances _) hslot)

theorem readTable_fills {slots : ObjectSlots} (hs : s.source.Ascending)
    (h : input.readTable slots s = .ok () t) : Fills input s t := by
  obtain ⟨u, items, htook, hloop⟩ := readTable_eq_ok hs h
  refine htook.fills.trans (Decode.replicate_induction (motive := fun _ v => Fills input u v) hloop
    (.refl htook.ascending) ?_).2
  intro done v _ w _ hv hstep
  obtain ⟨shape, object, x, y, hentry⟩ := readTableEntry_eq_ok hv.ascending hstep
  have hfields := objectFields_fills hentry.tag.ascending hentry.fields
  rw [hentry.state_eq]
  exact hv.trans ((hentry.tag.fills.trans hfields).setNode _ _)

theorem readArray_fills {index : Nat} (hs : s.source.Ascending)
    (h : input.readArray index s = .ok () t) : Fills input s t := by
  obtain ⟨length, elements, u, v, htook, -, helements, rfl⟩ := readArray_eq_ok hs h
  refine (htook.fills.trans ?_).setNode _ _
  rcases readElements_eq_ok htook.ascending helements with ⟨-, -, rfl⟩ | ⟨tag, w, -, htag, hloop⟩
  · exact .refl htook.ascending
  · refine htag.fills.trans (Decode.replicate_induction (motive := fun _ x => Fills input w x) hloop
      (.refl htag.ascending) ?_).2
    intro _ x _ y _ hx hslot
    exact hx.trans (slot_fills hx.ascending objectFields_advances hslot)

theorem readArrays_fills (hs : s.source.Ascending) (h : input.readArrays s = .ok () t) :
    Fills input s t := by
  obtain ⟨u, items, htook, hloop⟩ := readArrays_eq_ok hs h
  refine htook.fills.trans (Decode.replicate_induction (motive := fun _ v => Fills input u v) hloop
    (.refl htook.ascending) ?_).2
  intro _ v _ w _ hv hstep
  exact hv.trans (readArray_fills hv.ascending hstep)

/-! ### From section to section

A section ends where its frame says. So stepping over it leads to the same place as reading it, and
each section that is read is one that can be summarized. -/

/-- What fills a section is followed by what stands behind the substream. -/
theorem substream_of_inSection {α : Type} {label : String} {content : Decode α} {a : α}
    (hs : s.source.Ascending) (h : Decode.inSection label content s = .ok a t)
    (hcontent : ∀ u, u.source.Ascending → content u = .ok a t → Fills input u t) :
    ∃ body, Read.substream s.input = .ok body t.input ∧ Grows input s t := by
  obtain ⟨body, rest, hread, hrun, -⟩ := Decode.inSection_eq_ok.mp h
  have ht := hcontent _ (pays_section hs hread).ascending hrun
  have hrest : t.input = rest := ht.input_eq
  exact ⟨body, hrest ▸ hread, ht.ascending, ht.size_le, ht.size_eq⟩

/-- Value streams that are stored one after another are summarized one after another. Each
belongs to a tag of its own. -/
theorem summarizes_streams {count : Nat} {map : TagMap Reader} {items : List Unit}
    (hs : s.source.streams = some map)
    (h : Decode.replicate count input.readStream s = .ok items t) :
    ∃ streams, Read.replicate count Summary.readStream s.input = .ok streams t.input ∧
      (∀ stream ∈ streams, stream.1 < input.tags.size) ∧
      (streams.map (·.1)).Pairwise (· ≠ ·) := by
  -- What is stored when some of the streams are read are the streams of their tags.
  obtain ⟨hcount, streams, map', hread, hmap', htags, hnodup, -⟩ := Decode.replicate_induction
    (motive := fun done u => ∃ streams map',
      Read.replicate done.length Summary.readStream s.input = .ok streams u.input ∧
      u.source.streams = some map' ∧ (∀ stream ∈ streams, stream.1 < input.tags.size) ∧
      (streams.map (·.1)).Pairwise (· ≠ ·) ∧
      ∀ stream ∈ streams, (map'.find? stream.1).isSome = true)
    h ⟨[], map, rfl, hs, by simp, by simp, by simp⟩ fun done u _ v _ hu hstep => by
      obtain ⟨streams, map', hread, hmap', htags, hnodup, hstored⟩ := hu
      obtain ⟨key, r, stream, hlt, hnew, hkey, hstream, hv⟩ := readStream_cases hmap' hstep
      refine ⟨streams ++ [(key, stream.remaining)], map'.insert key stream, ?_, ?_, ?_, ?_, ?_⟩
      · rw [List.length_append]
        exact Read.replicate_succ_eq_ok hread (Summary.run_readStream hkey hstream)
      · rw [hv]
      · intro other hother
        rcases List.mem_append.mp hother with hother | hother
        · exact htags other hother
        · obtain rfl := List.mem_singleton.mp hother
          exact hlt
      · rw [List.map_append, List.pairwise_append]
        refine ⟨hnodup, List.pairwise_singleton _ _, fun a ha b hb => ?_⟩
        obtain ⟨old, hold, rfl⟩ := List.mem_map.mp ha
        obtain rfl : b = key := by simpa using hb
        intro heq
        have hsome := hstored old hold
        rw [heq, hnew] at hsome
        exact absurd hsome Bool.false_ne_true
      · intro other hother
        rw [TagMap.find?_insert]
        rcases List.mem_append.mp hother with hother | hother
        · split
          · rfl
          · exact hstored other hother
        · obtain rfl := List.mem_singleton.mp hother
          simp
  exact ⟨streams, hcount ▸ hread, htags, hnodup⟩

/-- The value streams are stepped over as they are stored, each with the tag that it is stored
under. -/
theorem summarizes_readStreams (hs : s.source.Ascending) (h : input.readStreams s = .ok () t) :
    ∃ streams, Summary.readStreams input.wire.valueStreams s.input = .ok streams t.input ∧
      (∀ stream ∈ streams, stream.1 < input.tags.size) ∧
      (streams.map (·.1)).Pairwise (· ≠ ·) ∧ Grows input s t := by
  have hkeeps := readStreams_eq_ok hs h
  have hgrows : Grows input s t :=
    ⟨hkeeps.pays.ascending, hkeeps.pays.size, fun _ => by rw [hkeeps.nodes]⟩
  unfold readStreams at h
  rw [Summary.readStreams]
  split at h
  · rename_i hon
    rw [if_pos hon]
    obtain ⟨count, v, hcount, h₁⟩ := run_bind_eq_ok.mp h
    obtain ⟨rest, hread, rfl⟩ := Decode.fromInput_eq_ok.mp hcount
    obtain ⟨_, w, hmodify, h₂⟩ := run_bind_eq_ok.mp h₁
    simp only [run_modify, EStateM.Result.ok.injEq, true_and] at hmodify
    subst hmodify
    obtain ⟨items, x, hloop, h₃⟩ := run_bind_eq_ok.mp h₂
    obtain ⟨-, rfl⟩ := run_pure_eq_ok.mp h₃
    obtain ⟨streams, hstreams, htags, hnodup⟩ := summarizes_streams rfl hloop
    exact ⟨streams, by rw [run_bind_of_ok hread]; exact hstreams, htags, hnodup, hgrows⟩
  · rename_i hoff
    rw [if_neg hoff]
    obtain ⟨-, rfl⟩ := run_pure_eq_ok.mp h
    exact ⟨[], rfl, by simp, by simp, hgrows⟩

/-- An object table is set up for an entry of the directory: it has as many entries, and if
there is a tag, that is the tag of their shape. -/
structure SetsUp (tags : Array Tag) (entry : Option Nat × Nat) (slots : ObjectSlots) : Prop where
  count : entry.2 = slots.count
  shape : entry.1 = none ∧ slots.shape = none ∨ ∃ index id, entry.1 = some index ∧
    tags[index]? = some (.shape id) ∧ slots.shape = some id

/-- Every entry of the directory sets up one table. -/
theorem setsUp_of_objectSlots {tags : Array Tag} {offset first : Nat}
    {entries : List (Option Nat × Nat)} {tables : List ObjectSlots}
    (h : objectSlots registry tags offset first entries = .ok tables) :
    List.Forall₂ (SetsUp tags) entries tables := by
  fun_induction objectSlots registry tags offset first entries generalizing tables with
  | case1 first =>
      obtain rfl := Except.ok.inj h
      exact .nil
  | case2 first count entries ih =>
      obtain ⟨rest, hrest, h₁⟩ := bind_eq_ok.mp h
      obtain rfl := Except.ok.inj h₁
      exact .cons ⟨rfl, .inl ⟨rfl, rfl⟩⟩ (ih hrest)
  | case3 first index count entries id hid ih =>
      obtain ⟨rest, hrest, h₁⟩ := bind_eq_ok.mp h
      obtain rfl := Except.ok.inj h₁
      exact .cons ⟨rfl, .inr ⟨index, id, rfl, hid, rfl⟩⟩ (ih hrest)
  | case4 => simp at h
  | case5 => simp at h

/-- Object tables are summarized in the order in which they are read. -/
theorem summarizes_readTables {tags : Array Tag} {entries : List (Option Nat × Nat)}
    {tables : List ObjectSlots} (hsets : List.Forall₂ (SetsUp tags) entries tables)
    (hs : s.source.Ascending) (h : tables.forM (fun slots =>
      Decode.inSection slots.label (input.readTable slots)) s = .ok ⟨⟩ t) :
    ∃ summaries, entries.mapM Summary.readTable s.input = .ok summaries t.input ∧
      List.Forall₂ (TableSummary.Shows tags) summaries tables ∧ Grows input s t := by
  induction hsets generalizing s with
  | nil =>
      obtain ⟨-, rfl⟩ := run_pure_eq_ok.mp h
      exact ⟨[], rfl, .nil, .refl hs⟩
  | @cons entry slots entries tables hhead _ ih =>
      obtain ⟨_, u, htable, h₁⟩ := run_bind_eq_ok.mp h
      obtain ⟨body, hread, hu⟩ := substream_of_inSection hs htable
        fun _ hv hrun => readTable_fills hv hrun
      obtain ⟨summaries, hsummaries, hshows, ht⟩ := ih hu.ascending h₁
      refine ⟨⟨entry.1, entry.2, body.remaining⟩ :: summaries, ?_,
        .cons ⟨hhead.count, hhead.shape⟩ hshows, hu.trans ht⟩
      rw [List.mapM_cons, run_bind_of_ok (Summary.run_readTable entry hread),
        run_bind_of_ok hsummaries]
      rfl

end DecodeInput

/-! ### A whole module

The two go through the parts of the module side by side, from the header to the end of the bytes. -/

/-- What stands in front of the value streams is the same for both. -/
theorem summarizes_front {bytes : List UInt8}
    (h : readInput registry (Decode.start bytes) = .ok input t) :
    ∃ directory tags strings r₁ r₂ r₃,
      readHeader (.ofBytes bytes) = .ok input.wire r₁ ∧
      readDirectory input.wire r₁ = .ok directory r₂ ∧
      Summary.substreamLength r₂ = .ok tags r₃ ∧ Summary.substreamLength r₃ = .ok strings t.input ∧
      directory.tags = input.tags.size ∧ directory.strings = input.strings.size ∧
      directory.arrays = input.arrayCount ∧
      List.Forall₂ (DecodeInput.SetsUp input.tags) directory.objects.entries input.tables := by
  obtain ⟨wire, s₁, directory, s₂, tags, s₃, strings, s₄, tables, hwire, hdirectory, htags, hstrings,
    hallocate, rfl⟩ := readInput_eq_ok h
  obtain ⟨r₁, hheader, rfl⟩ := Decode.fromInput_eq_ok.mp hwire
  obtain ⟨r₂, hcounts, rfl⟩ := Decode.fromInput_eq_ok.mp hdirectory
  obtain ⟨-, hslots, rfl⟩ := allocate_eq_ok hallocate
  obtain ⟨tagBody, r₃, htagBody, htags, -⟩ := Decode.inSection_eq_ok.mp htags
  obtain ⟨stringBody, r₄, hstringBody, hstrings, -⟩ := Decode.inSection_eq_ok.mp hstrings
  -- The names of the tags and the strings are taken from their own sections.
  have hstart : (Decode.start bytes).source.Ascending := by
    intro map hmap
    simp [Decode.start] at hmap
  have htook₃ := (readTagTable_eq_ok (s := { Decode.start bytes with
    input := r₃, source := { (Decode.start bytes).source with body := tagBody } }) hstart htags).1
  have htook₄ := readStringTable_eq_ok (s := { s₃ with
    input := r₄, source := { s₃.source with body := stringBody } }) htook₃.ascending hstrings
  have hinput₃ : s₃.input = r₃ := htook₃.input
  have hinput₄ : s₄.input = r₄ := htook₄.input
  have htagCount : tags.length = directory.tags := by
    obtain ⟨_, u, -, hloop⟩ := run_bind_eq_ok.mp htags
    exact (Decode.replicate_induction (motive := fun _ _ => True) hloop trivial
      fun _ _ _ _ _ _ _ => trivial).1
  have hstringCount : strings.length = directory.strings := by
    obtain ⟨_, u, -, hloop⟩ := run_bind_eq_ok.mp hstrings
    obtain ⟨rest, hread, -⟩ := Decode.fromSection_eq_ok.mp hloop
    exact (Read.replicate_eq_ok hread).1
  exact ⟨directory, _, _, r₁, r₂, r₃, hheader, hcounts,
    Summary.run_substreamLength htagBody,
    hinput₄ ▸ Summary.run_substreamLength (hinput₃ ▸ hstringBody), by simp [htagCount],
    by simp [hstringCount], rfl, DecodeInput.setsUp_of_objectSlots hslots⟩

theorem sum_shown {tags : Array Tag} {summaries : List TableSummary} {tables : List ObjectSlots}
    (h : List.Forall₂ (TableSummary.Shows tags) summaries tables) :
    (summaries.map (·.count)).foldr (· + ·) 0 = (tables.map ObjectSlots.count).sum := by
  induction h with
  | nil => rfl
  | cons hhead _ ih => rw [List.map_cons, List.map_cons, List.sum_cons, List.foldr_cons, ih, hhead.count]

/-- A module that is decoded, under any registry, has a summary. It shows the counts that
the decoder has set its tables up with, and its objects and arrays are the nodes of the
tree, but for the objects in place. -/
theorem inspect_of_decode {bytes : List UInt8} {tree : Tree}
    (h : decode bytes registry = .ok tree) :
    ∃ summary input s, inspect bytes = .ok summary ∧
      readInput registry (Decode.start bytes) = .ok input s ∧ summary.Agrees input ∧
      summary.objects + summary.arrays ≤ tree.size ∧
      (summary.wire.inlineObjects = false → summary.objects + summary.arrays = tree.size) := by
  obtain ⟨input, s, root, t, hinput, hsections, hend, rfl, -⟩ := readSections_of_decode h
  have hsetUp := setUp_of_readInput hinput
  obtain ⟨directory, tags, strings, r₁, r₂, r₃, hwire, hdirectory, htags, hstrings,
    htagCount, hstringCount, harrayCount, hslots⟩ := summarizes_front hinput
  obtain ⟨u, v, w, hstreams, htables, harrays, hroot, -⟩ := DecodeInput.readSections_eq_ok hsections
  obtain ⟨streams, hstreams, hstreamTags, hdistinct, hu⟩ :=
    DecodeInput.summarizes_readStreams hsetUp.ascending hstreams
  obtain ⟨tables, htables, hshows, hv⟩ := DecodeInput.summarizes_readTables hslots hu.ascending htables
  obtain ⟨arrayBody, harrays, hw⟩ := DecodeInput.substream_of_inSection hv.ascending harrays
    fun _ hx hrun => DecodeInput.readArrays_fills hx hrun
  obtain ⟨rootBody, hroot, ht⟩ := DecodeInput.substream_of_inSection hw.ascending hroot
    fun _ hx hrun => DecodeInput.slot_fills hx DecodeInput.objectFields_advances hrun
  have hread := Summary.run_read bytes.length hwire hdirectory htags hstrings hstreams htables
    (Summary.run_substreamLength harrays) (Summary.run_substreamLength hroot) hend
  -- From the tables that are set up to the end of the root, only objects in place add nodes.
  have hgrows := ((hu.trans hv).trans hw).trans ht
  obtain ⟨hentries, hsize⟩ := hsetUp.tableEntries_eq
  have hobjects := (sum_shown hshows).trans hentries
  refine ⟨_, input, s, inspect_of_read hread, hinput,
    ⟨rfl, htagCount, hstringCount, harrayCount, hshows, hstreamTags, hdistinct⟩, ?_, fun hplace => ?_⟩
  · have hle := hgrows.size_le
    simp only [Summary.objects, hobjects, harrayCount, Tree.size]
    omega
  · have heq := hgrows.size_eq hplace
    simp only [Summary.objects, hobjects, harrayCount, Tree.size]
    omega

end Module

end SyntaxPack
