import SyntaxPack.Proofs.Encode.Emitted
import SyntaxPack.Proofs.RoundTrip.Layout
import SyntaxPack.Proofs.Summary.Accepted
/-!
# SyntaxPack.Proofs.Summary.Written

Whatever is encoded is summarized as it was written.

A module is written part by part, and the summary reads the parts in the same order: the
header and the directory as they are, and of each frame the number of bytes in it. So it
lists the object tables and the value streams of the module, and what it counts is, with
the frames, every byte there is.

The proof follows the bytes. `Takes` says of a reader that it takes exactly some bytes and returns
a value, and composes along binds; for each part of the layout there is one lemma of that form, and
`inspect_eq` puts them together. What the summary says about the module is then read off the layout
(`describes_summary`), and not off the reader. The main result joins this with what is known of the
summary of a module that is decoded.
-/

namespace SyntaxPack

open Token (sectionBytes)

/-! ### Bytes that a summary accounts for

A summary lists the lengths of contents. Around each of them stand the bytes of its frame, and in
front the header and the directory, whose lengths the wire format and the number of object tables
fix. `accounted` adds all of this up from the fields of the summary alone. -/

namespace Summary

/-- The number of bytes of the header. -/
def headerBytes : Nat := 28

/-- The number of bytes that frame a substream. -/
def frameBytes : Nat := 8

/-- The number of bytes of the directory: three counts, and the counts of the object tables,
which follow their number and their tags if there is one table per shape. -/
def directoryBytes (s : Summary) : Nat :=
  12 + if s.wire.partitionedTables then 4 + 8 * s.objectTables.length else 4

/-- The number of bytes of all value streams: their number, and each in a frame behind its
tag. -/
def streamBytes (s : Summary) : Nat :=
  if s.wire.valueStreams then
    4 + (s.valueStreams.map fun stream => 4 + (stream.2 + frameBytes)).foldr (· + ·) 0
  else 0

/-- The number of bytes of all parts of a module. -/
def accounted (s : Summary) : Nat :=
  headerBytes + s.directoryBytes + s.streamBytes +
    (s.sections.map (·.2 + frameBytes)).foldr (· + ·) 0 +
    (s.objectTables.map (·.bytes + frameBytes)).foldr (· + ·) 0

end Summary

/-- A table in a summary is an object table of a module: it has as many entries as there are
objects with an index, and in a partitioned module it has the tag index of their shape. -/
structure TableSummary.Lists (registry : Registry) (m : Module) (t : ObjectTable)
    (table : TableSummary) : Prop where
  count : ∃ order, t.table.indexed = .ok order ∧ table.count = order.length
  shared : m.objects.partitioned = false → table.shapeTag = none
  partitioned : m.objects.partitioned = true → ∃ shape index, t.shape = some shape ∧
    m.tagIndex registry (.shape shape) = .ok index ∧ table.shapeTag = some index

/-- A summary is that of a module that was written. -/
structure Summary.Describes (registry : Registry) (config : EncodingConfig) (m : Module)
    (bytes : List UInt8) (s : Summary) : Prop where
  wire : s.wire = config.wire
  tags : s.tags = m.tags.size
  strings : s.strings = m.strings.size
  arrays : s.arrays = m.arrays.size
  tables : List.Forall₂ (TableSummary.Lists registry m) m.objects.tables s.objectTables
  streams_lt : (s.valueStreams.map (·.1)).Pairwise (· < ·)
  streams_pos : ∀ stream ∈ s.valueStreams, 0 < stream.2
  total : s.totalBytes = bytes.length
  accounted : s.accounted = s.totalBytes

namespace Summary

open Read

/-! ### Frames -/

theorem takes_substreamLength {label : String} {body framed : List UInt8}
    (h : Bytes.framed label body = .ok framed) : substreamLength.Takes framed body.length := by
  intro rest offset
  exact run_substreamLength (run_substream h rest offset)

theorem takes_readStream {label : String} {tag : Nat} {body framed : List UInt8}
    (htag : tag < UInt32.size) (h : Bytes.framed label body = .ok framed) :
    readStream.Takes (Bytes.fixed 4 tag ++ framed) (tag, body.length) :=
  (takes_nat32 htag).bind ((takes_substreamLength h).map fun bytes => (tag, bytes))

/-- Object tables one after another, each behind its entry in the directory. -/
theorem takes_readTables {streams : Bool} {entries : List (Option Nat × Nat)}
    {sections : List (List Token)} {parts : List (List UInt8)}
    (hlength : entries.length = sections.length)
    (h : List.Forall₂ (fun tokens part => ∃ label,
      Module.WriteInput.frame label (sectionBytes streams tokens) = .ok part) sections parts) :
    Takes (entries.mapM readTable) parts.flatten
      (entries.zipWith (fun entry tokens => ⟨entry.1, entry.2, (sectionBytes streams tokens).length⟩)
        sections) := by
  induction h generalizing entries with
  | nil =>
      obtain rfl := List.length_eq_zero_iff.mp hlength
      exact takes_pure []
  | @cons tokens part sections parts hpart _ ih =>
      obtain ⟨entry, entries, rfl⟩ := List.exists_cons_of_length_eq_add_one hlength
      obtain ⟨label, hframe⟩ := hpart
      have hhead := (takes_substreamLength (mapError_eq_ok.mp hframe)).map
        fun bytes => (⟨entry.1, entry.2, bytes⟩ : TableSummary)
      rw [List.mapM_cons, List.flatten_cons]
      exact hhead.bind ((ih (by simpa using hlength)).map (_ :: ·))

end Summary

namespace Module

namespace Replay

open Read Summary

variable {c : Replay} {bytes : List UInt8}

/-! ### The parts of a module

The streams, the tables and the sizes as the summary should list them, each computed from the layout
of the module. That the reader finds these is the business of the lemmas after them. -/

namespace Layout

variable (l : c.Layout bytes)

/-- The value streams as a summary lists them. -/
def streamSummaries : List (Nat × Nat) := l.w.filled.map fun stream => (stream.1, stream.2.length)

/-- The object tables as a summary lists them. -/
def tableSummaries : List TableSummary :=
  c.directory.objects.entries.zipWith (fun entry tokens =>
    ⟨entry.1, entry.2, (sectionBytes c.input.config.valueStreams tokens).length⟩) l.objectTokens

/-- The summary of the module. -/
def summary : Summary where
  wire := c.input.config.wire
  tags := c.directory.tags
  strings := c.directory.strings
  arrays := c.directory.arrays
  objectTables := l.tableSummaries
  valueStreams := l.streamSummaries
  sections := [("tags", l.tagBytes.length), ("strings", l.stringBytes.length),
    ("arrays", (sectionBytes c.input.config.valueStreams l.arrayTokens).length),
    ("root", (sectionBytes c.input.config.valueStreams l.rootTokens).length)]
  totalBytes := bytes.length

end Layout

/-- The directory has one entry for every object table. -/
theorem length_entries_directory (hb : c.IsBuilt) :
    c.directory.objects.entries.length = c.module.objects.tables.length := by
  have hpartitioned := hb.partitioned
  rw [directory, objectDirectory]
  cases hp : c.input.config.partitionedTables with
  | true => simp [ObjectDirectory.entries]
  | false =>
      rw [hp] at hpartitioned
      obtain ⟨shared, hshared⟩ := hb.filled.wellShaped.shared hpartitioned
      simp [ObjectDirectory.entries, hshared]

/-- Every entry of the directory is that of an object table. -/
theorem lists_entries (hb : c.IsBuilt) :
    List.Forall₂ (fun (t : ObjectTable) (entry : Option Nat × Nat) =>
        ∀ bytes, TableSummary.Lists c.input.registry c.module t ⟨entry.1, entry.2, bytes⟩)
      c.module.objects.tables c.directory.objects.entries := by
  have hpartitioned := hb.partitioned
  have hcount : ∀ t ∈ c.module.objects.tables,
      ∃ order, t.table.indexed = .ok order ∧ t.table.keys.length = order.length := by
    intro t ht
    obtain ⟨shape, htable, -⟩ := hb.filled.wellShaped.exists_table? ht
    obtain ⟨order, horder, hlength⟩ := (hb.objects shape _ htable).order
    exact ⟨order, by rw [Table.indexed, horder], hlength.symm⟩
  rw [directory, objectDirectory]
  -- One entry for each shape with its tag in front, or one entry without a tag for all shapes.
  cases hp : c.input.config.partitionedTables with
  | true =>
      rw [hp] at hpartitioned
      rw [if_pos rfl, ObjectDirectory.entries, List.map_map, List.forall₂_map_right_iff,
        List.forall₂_same]
      intro t ht bytes
      obtain ⟨shape, hmem, hshape⟩ := hb.mem_shapes_of_table hpartitioned ht
      have hlisted := mem_tagsOf_shape.mpr hmem
      have hlt := List.idxOf_lt_length_of_mem hlisted
      -- The shape of a table is in use, so its tag is listed, and the entry shows the position
      -- there.
      have hindex : c.module.tagIndex c.input.registry (.shape shape) =
          .ok ((tagsOf c.shapes).idxOf (.shape shape)) := by
        refine (hb.tags.tagIndex_eq_ok_iff _ _ (hb.filled.tags.registered_of_mem hlisted)).mpr ?_
        rw [List.getElem?_eq_getElem hlt, List.getElem_idxOf]
      refine ⟨hcount t ht, fun hshared => ?_, fun _ => ⟨shape, _, hshape, hindex, ?_⟩⟩
      · exact absurd (hpartitioned.symm.trans hshared) Bool.false_ne_true.symm
      · simp only [Function.comp, hshape, WriteInput.slotTag, Option.elim_some]
  | false =>
      rw [hp] at hpartitioned
      obtain ⟨shared, hshared⟩ := hb.filled.wellShaped.shared hpartitioned
      have hkeys : c.objectCount = shared.keys.length := by simp [objectCount, hshared]
      simp only [Bool.false_eq_true, if_false, ObjectDirectory.entries, hshared]
      refine .cons (fun bytes => ⟨?_, fun _ => rfl, fun hon => ?_⟩) .nil
      · rw [hkeys]
        exact hcount _ (by rw [hshared]; exact List.mem_singleton_self _)
      · exact absurd (hpartitioned.symm.trans hon) Bool.false_ne_true

namespace Layout

variable (l : c.Layout bytes)

/-- The value streams are read as a summary lists them, each after its tag. -/
theorem takes_readStreams (hlt : ∀ stream ∈ l.w.filled, stream.1 < UInt32.size) :
    (Summary.readStreams c.input.config.wire.valueStreams).Takes l.streams l.streamSummaries := by
  have h := l.writes_streams
  have hwire : c.writer.wire.valueStreams = c.input.config.valueStreams := rfl
  have hwire' : c.input.config.wire.valueStreams = c.input.config.valueStreams := rfl
  rw [WriteInput.streamSection, hwire] at h
  rw [hwire', Summary.readStreams]
  -- Without value streams the section is empty, and no token was sent to a stream.
  cases hstreams : c.input.config.valueStreams with
  | false =>
      simp only [hstreams, Bool.not_false, if_true] at h
      have hnone : l.streamSummaries = [] := by
        simp [streamSummaries, StreamWriter.filled, l.sent.streamed.disabled hstreams]
      rw [← Except.ok.inj h, hnone, if_neg Bool.false_ne_true]
      exact takes_pure []
  | true =>
      simp only [hstreams, Bool.not_true, Bool.false_eq_true, if_false] at h
      obtain ⟨count, hcount, h₁⟩ := bind_eq_ok.mp h
      obtain ⟨parts, hparts, h₂⟩ := bind_eq_ok.mp h₁
      obtain ⟨hcountLt, rfl⟩ := lt_of_ofCount hcount
      have hall : List.Forall₂ Summary.readStream.Takes parts l.streamSummaries := by
        rw [streamSummaries, List.forall₂_map_right_iff]
        refine (forall₂_imp_of_mem (mapM_eq_ok.mp hparts) fun stream hstream part _ hpart => ?_).flip
        obtain ⟨framed, hframe, h₃⟩ := bind_eq_ok.mp hpart
        exact Except.ok.inj h₃ ▸ takes_readStream (hlt stream hstream) (mapError_eq_ok.mp hframe)
      have hlength : l.w.filled.length = l.streamSummaries.length := (List.length_map _).symm
      rw [← Except.ok.inj h₂, if_pos rfl]
      rw [hlength] at hcountLt ⊢
      exact (takes_nat32 hcountLt).bind (takes_replicate_parts hall)

/-- A module that was written is summarized from its first byte to its last. -/
theorem inspect_eq (hb : c.IsBuilt)
    (hlt : ∀ token ∈ l.tokens, ∀ i, token.stream = some i → i < (tagsOf c.shapes).length) :
    inspect bytes = .ok l.summary := by
  obtain ⟨htagsLt, hdirectory⟩ := takes_readDirectory hb l.writes_directory
  have hstreamsLt : ∀ stream ∈ l.w.filled, stream.1 < UInt32.size := by
    intro stream hstream
    obtain ⟨-, token, htoken, hkey⟩ := l.sent.streamed.stored.nonempty stream hstream
    exact Nat.lt_trans (hlt token htoken stream.1 hkey) htagsLt
  have hentries : c.directory.objects.entries.length = l.objectTokens.length :=
    (length_entries_directory hb).trans l.writes_objects.length_eq
  have hbytes : Reader.ofBytes bytes = ⟨c.writer.header ++ (l.directory ++ (l.tags ++ (l.strings ++
      (l.streams ++ (l.objects.flatten ++ (l.arrays ++ (l.root ++ []))))))), 0⟩ := by
    rw [Reader.ofBytes, List.append_nil, ← l.bytes_eq]
  have hread := Summary.run_read bytes.length (takes_readHeader c.writer _ 0) (hdirectory _ _)
    (takes_substreamLength (mapError_eq_ok.mp l.frames_tags) _ _)
    (takes_substreamLength (mapError_eq_ok.mp l.frames_strings) _ _)
    (l.takes_readStreams hstreamsLt _ _) (takes_readTables hentries l.frames_objects _ _)
    (takes_substreamLength (mapError_eq_ok.mp l.frames_arrays) _ _)
    (takes_substreamLength (mapError_eq_ok.mp l.frames_root) [] _) rfl
  rw [← hbytes] at hread
  exact inspect_of_read hread

/-! ### What the summary says

The counts and lengths in the summary, added up with the frames, are those of the parts of the
layout, and these make up all bytes. -/

theorem length_header : c.writer.header.length = headerBytes := by
  unfold WriteInput.header
  rw [List.length_append, List.length_append]
  show magic.length + (Bytes.ofText formatName).length + 2 = 28
  decide

theorem length_tableSummaries (hb : c.IsBuilt) :
    l.tableSummaries.length = c.module.objects.tables.length := by
  have hentries := length_entries_directory hb
  have hsections := l.writes_objects.length_eq
  rw [tableSummaries, List.length_zipWith]
  omega

/-- The object tables stand in the module as the summary counts them. -/
theorem sum_tableSummaries (hb : c.IsBuilt) :
    (l.tableSummaries.map (·.bytes + frameBytes)).foldr (· + ·) 0 = l.objects.flatten.length := by
  have hentries : c.directory.objects.entries.length = l.objectTokens.length :=
    (length_entries_directory hb).trans l.writes_objects.length_eq
  unfold tableSummaries
  rw [l.length_objects]
  generalize c.directory.objects.entries = entries at hentries
  generalize l.objectTokens = sections at hentries
  induction sections generalizing entries with
  | nil =>
      rw [List.zipWith_nil_right]
      rfl
  | cons tokens sections ih =>
      obtain ⟨entry, entries, rfl⟩ := List.exists_cons_of_length_eq_add_one hentries
      have hrest := ih entries (by simpa using hentries)
      rw [List.zipWith_cons_cons, List.map_cons, List.map_cons, List.foldr_cons, hrest,
        List.length_cons, List.sum_cons]
      simp only [frameBytes]
      omega

/-- So do the value streams. -/
theorem streamBytes_summary : l.summary.streamBytes = l.streams.length := by
  have hsum : ∀ filled : List (Nat × List UInt8),
      ((filled.map fun stream => (stream.1, stream.2.length)).map
        fun stream => 4 + (stream.2 + frameBytes)).foldr (· + ·) 0 =
      12 * filled.length + (filled.map fun stream => stream.2.length).sum := by
    intro filled
    induction filled with
    | nil => rfl
    | cons stream filled ih =>
        rw [List.map_cons, List.map_cons, List.foldr_cons, ih, List.length_cons, List.map_cons,
          List.sum_cons]
        simp only [frameBytes]
        omega
  have hwire : l.summary.wire.valueStreams = c.input.config.valueStreams := rfl
  unfold Summary.streamBytes
  rw [l.length_streams, l.held_eq, hwire, streamOverhead]
  split
  · show 4 + (l.streamSummaries.map _).foldr (· + ·) 0 = _
    rw [streamSummaries, hsum]
    omega
  · rename_i hoff
    have hnone : l.w.filled = [] := by
      simp [StreamWriter.filled, l.sent.streamed.disabled (Bool.eq_false_iff.mpr hoff)]
    rw [hnone]
    rfl

/-- With its frames, what is summarized are all bytes of the module. -/
theorem accounted_summary (hb : c.IsBuilt) : l.summary.accounted = bytes.length := by
  have htags := (lt_of_frame l.frames_tags).2
  have hstrings := (lt_of_frame l.frames_strings).2
  have harrays := (lt_of_frame l.frames_arrays).2
  have hroot := (lt_of_frame l.frames_root).2
  -- All lengths are known part by part, and the frames of the four sections are eight bytes each.
  have hdirectory : l.summary.directoryBytes = l.directory.length := by
    unfold Summary.directoryBytes
    rw [l.length_directory]
    show 12 + (if c.input.config.partitionedTables then 4 + 8 * l.tableSummaries.length else 4) = _
    rw [l.length_tableSummaries hb, directoryObjectsLength]
  have htables := l.sum_tableSummaries hb
  have hbytes : bytes.length = (c.writer.header ++ (l.directory ++ (l.tags ++ (l.strings ++
      (l.streams ++ (l.objects.flatten ++ (l.arrays ++ l.root))))))).length :=
    congrArg List.length l.bytes_eq
  simp only [List.length_append] at hbytes
  unfold Summary.accounted
  rw [hdirectory, l.streamBytes_summary, ← length_header (c := c)]
  show c.writer.header.length + l.directory.length + l.streams.length + _ +
    (l.tableSummaries.map (·.bytes + frameBytes)).foldr (· + ·) 0 = _
  rw [htables]
  simp only [summary, List.map_cons, List.map_nil, List.foldr_cons, List.foldr_nil, frameBytes]
  omega

/-- The summary of the layout is that of the module: its tables are listed one by one, its streams
in ascending order and without empty ones, and nothing is left over. -/
theorem describes_summary (hb : c.IsBuilt) :
    l.summary.Describes c.input.registry c.input.config c.module bytes where
  wire := rfl
  tags := hb.tags.size.symm
  strings := hb.string_count
  arrays := hb.array_count
  tables := by
    have hentries := lists_entries hb
    have hsections := l.writes_objects.length_eq
    show List.Forall₂ _ _ l.tableSummaries
    unfold tableSummaries
    generalize c.directory.objects.entries = entries at hentries
    generalize l.objectTokens = sections at hsections
    generalize c.module.objects.tables = tables at hentries hsections
    induction hentries generalizing sections with
    | nil =>
        rw [List.zipWith_nil_left]
        exact .nil
    | @cons t entry tables entries hhead _ ih =>
        obtain ⟨tokens, sections, rfl⟩ := List.exists_cons_of_length_eq_add_one hsections.symm
        rw [List.zipWith_cons_cons]
        exact .cons (hhead _) (ih sections (by simpa using hsections))
  streams_lt := by
    show (l.streamSummaries.map (·.1)).Pairwise (· < ·)
    rw [streamSummaries, List.map_map, List.pairwise_map]
    exact l.sent.streamed.stored.ascending
  streams_pos := by
    intro stream hstream
    obtain ⟨filled, hfilled, rfl⟩ := List.mem_map.mp hstream
    exact List.length_pos_iff.mpr (l.sent.streamed.stored.nonempty filled hfilled).1
  total := rfl
  accounted := l.accounted_summary hb

end Layout

/-- The tokens of all sections are among those that a module is made of. -/
theorem emitsAll_tokens (l : c.Layout bytes) : c.writer.EmitsAll l.tokens := by
  refine WriteInput.EmitsAll.append ?_ (.append (WriteInput.emits_arraySection l.writes_arrays)
    (WriteInput.emits_rootSection l.writes_root))
  intro token htoken
  obtain ⟨section_, hsection, htoken⟩ := List.mem_flatten.mp htoken
  obtain ⟨table, -, htable⟩ := exists_left_of_forall₂ l.writes_objects hsection
  exact WriteInput.emits_objectSection htable token htoken

end Replay

/-- A module that is encoded has a summary, which tells its layout, its counts, its object
tables and its value streams, and accounts for every byte of it. -/
theorem inspect_of_encode {registry : Registry} (hr : registry.Valid) {tree : Tree}
    {config : EncodingConfig} {bytes : List UInt8} (h : encode tree registry config = .ok bytes) :
    ∃ m summary, Module.build tree registry config = .ok m ∧ inspect bytes = .ok summary ∧
      summary.Describes registry config m bytes := by
  obtain ⟨m, hbuild, hbytes⟩ := bind_eq_ok.mp h
  obtain ⟨shapes, rank, hlocated, -, -⟩ := located_of_build hr hbuild
  let c : Replay := ⟨⟨tree, registry, config⟩, shapes, rank, m, bytes.length⟩
  obtain ⟨l⟩ := Replay.nonempty_layout (c := c) hbytes
  have hemits := Replay.emitsAll_tokens l
  exact ⟨m, l.summary, hbuild, l.inspect_eq hlocated fun token htoken i hi =>
    hlocated.stream_lt hr hbuild (hemits token htoken) hi, l.describes_summary hlocated⟩

/-- The summary agrees with the decoder, on whatever the decoder accepts under any registry,
and with the encoder, on whatever the encoder writes. -/
theorem inspect_agrees :
    (∀ (registry : Registry) (bytes : List UInt8) (tree : Tree), decode bytes registry = .ok tree →
      ∃ summary input s, inspect bytes = .ok summary ∧
        readInput registry (Decode.start bytes) = .ok input s ∧ summary.Agrees input ∧
        summary.objects + summary.arrays ≤ tree.size ∧
        (summary.wire.inlineObjects = false → summary.objects + summary.arrays = tree.size)) ∧
    ∀ (description : RegistryDescription) (registry : Registry), description.build = .ok registry →
      ∀ (tree : Tree) (config : EncodingConfig) (bytes : List UInt8),
        encode tree registry config = .ok bytes →
          ∃ m summary, Module.build tree registry config = .ok m ∧ inspect bytes = .ok summary ∧
            summary.Describes registry config m bytes :=
  ⟨fun _ _ _ h => inspect_of_decode h, fun _ _ hbuild _ _ _ h =>
    inspect_of_encode (RegistryDescription.valid_of_build hbuild) h⟩

/-- Of the two pairs that stand in place none is in a table; in value streams and a table of
their own, both are. -/
theorem inspect_agrees_pairs : decode pairsInPlace .pairs = .ok .pairs ∧
    (∃ summary, inspect pairsInPlace = .ok summary ∧ summary.objects + summary.arrays ≤ 2) ∧
    RegistryDescription.pairs.build = .ok .pairs ∧ ∃ bytes summary,
      encode .pairs .pairs { partitionedTables := true, valueStreams := true } = .ok bytes ∧
      inspect bytes = .ok summary ∧ summary.accounted = bytes.length := by
  have hsome : (encode .pairs .pairs
      { partitionedTables := true, valueStreams := true }).toOption.isSome = true := by
    decide +kernel
  obtain ⟨bytes, hbytes⟩ := Option.isSome_iff_exists.mp hsome
  have hencode := eq_ok_of_toOption hbytes
  obtain ⟨summary, input, s, hinspect, -, -, hle, -⟩ :=
    inspect_agrees.1 .pairs pairsInPlace .pairs decode_pairsInPlace
  obtain ⟨m, written, -, hwritten, hdescribes⟩ :=
    inspect_agrees.2 .pairs .pairs Registry.build_pairs .pairs _ bytes hencode
  exact ⟨decode_pairsInPlace, ⟨summary, hinspect, hle⟩, Registry.build_pairs, bytes, written, hencode,
    hwritten, hdescribes.accounted.trans hdescribes.total⟩

end Module

end SyntaxPack
