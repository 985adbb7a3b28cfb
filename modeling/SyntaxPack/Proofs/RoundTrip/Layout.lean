import SyntaxPack.Proofs.Encode.Overflow
import SyntaxPack.Proofs.RoundTrip.Front
/-!
# SyntaxPack.Proofs.RoundTrip.Layout

What the bytes of a module are made of.

`Layout` names the parts that a module was put together from: the tokens of every section,
what became of them when they were sent to their places, and the framed sections. Every
entry of a table has a token, every token a byte, and every byte is in a section or in a
stream; so the bytes behind the strings are at least as many as the entries of all tables,
which is what the decoder asks for before it sets them up.
-/

namespace SyntaxPack

open Token (sectionBytes allBytes)
open StreamWriter (Streamed Sent)

namespace Module

namespace Replay

variable {c : Replay} {bytes : List UInt8}

/-- The parts of a module that was written. -/
structure Layout (c : Replay) (bytes : List UInt8) where
  directory : List UInt8
  tagBytes : List UInt8
  tags : List UInt8
  stringBytes : List UInt8
  strings : List UInt8
  objectTokens : List (List Token)
  arrayTokens : List Token
  rootTokens : List Token
  w : StreamWriter
  streams : List UInt8
  objects : List (List UInt8)
  arrays : List UInt8
  root : List UInt8
  writes_directory : c.writer.directory = .ok directory
  writes_tags : c.writer.tagSection = .ok tagBytes
  frames_tags : WriteInput.frame "tags" tagBytes = .ok tags
  writes_strings : c.writer.stringSection = .ok stringBytes
  frames_strings : WriteInput.frame "strings" stringBytes = .ok strings
  writes_objects : List.Forall₂ (fun (table : ObjectTable) tokens =>
    c.writer.objectSection table.table = .ok tokens) c.module.objects.tables objectTokens
  writes_arrays : c.writer.arraySection = .ok arrayTokens
  writes_root : c.writer.rootSection = .ok rootTokens
  sent : Sent c.input.config.valueStreams [] (objectTokens.flatten ++ (arrayTokens ++ rootTokens))
    (.start c.input.config.valueStreams)
    ((objectTokens.map fun tokens => (sectionBytes c.input.config.valueStreams tokens).length).sum +
      (sectionBytes c.input.config.valueStreams arrayTokens).length +
      (sectionBytes c.input.config.valueStreams rootTokens).length) w
  writes_streams : c.writer.streamSection w = .ok streams
  frames_objects : List.Forall₂ (fun tokens part => ∃ label, WriteInput.frame label
    (sectionBytes c.input.config.valueStreams tokens) = .ok part) objectTokens objects
  frames_arrays : WriteInput.frame "arrays"
    (sectionBytes c.input.config.valueStreams arrayTokens) = .ok arrays
  frames_root : WriteInput.frame "root"
    (sectionBytes c.input.config.valueStreams rootTokens) = .ok root
  bytes_eq : bytes = c.writer.header ++ (directory ++ (tags ++ (strings ++
    (streams ++ (objects.flatten ++ (arrays ++ root))))))

/-- Frames that are put around sections of given bytes, each with the label of a table. -/
theorem frames_of_mapM {tables : List (UniqueTable NodeId)} {sections : List (List Token)}
    {streams : Bool} {parts : List (List UInt8)} (hlength : tables.length = sections.length)
    (h : (tables.zip (sections.map (sectionBytes streams))).mapM
      (fun p => WriteInput.frame p.1.label p.2) = .ok parts) :
    List.Forall₂ (fun tokens part => ∃ label,
      WriteInput.frame label (sectionBytes streams tokens) = .ok part) sections parts := by
  have hall := mapM_eq_ok.mp h
  clear h
  induction sections generalizing tables parts with
  | nil =>
      rw [List.map_nil, List.zip_nil_right] at hall
      cases hall
      exact .nil
  | cons tokens sections ih =>
      obtain ⟨table, tables, rfl⟩ := List.exists_cons_of_length_eq_add_one hlength
      rw [List.map_cons, List.zip_cons_cons] at hall
      cases hall with | cons hpart hparts => ?_
      exact .cons ⟨_, hpart⟩ (ih (by simpa using hlength) hparts)

/-- A module that was written has its parts. -/
theorem nonempty_layout (h : c.writer.bytes = .ok bytes) : Nonempty (c.Layout bytes) := by
  obtain ⟨directory, hdirectory, h₁⟩ := bind_eq_ok.mp h
  obtain ⟨tagBytes, htagBytes, h₂⟩ := bind_eq_ok.mp h₁
  obtain ⟨tags, htags, h₃⟩ := bind_eq_ok.mp h₂
  obtain ⟨stringBytes, hstringBytes, h₄⟩ := bind_eq_ok.mp h₃
  obtain ⟨strings, hstrings, h₅⟩ := bind_eq_ok.mp h₄
  obtain ⟨objectTokens, hobjectTokens, h₆⟩ := bind_eq_ok.mp h₅
  obtain ⟨arrayTokens, harrayTokens, h₇⟩ := bind_eq_ok.mp h₆
  obtain ⟨rootTokens, hrootTokens, h₈⟩ := bind_eq_ok.mp h₇
  have hsections := mapM_eq_ok.mp hobjectTokens
  -- the tokens of all sections are sent to their places, one section after another
  have hstart := StreamWriter.streamed_start c.input.config.valueStreams
  obtain ⟨w₁, hplace₁, hw₁⟩ := WriteInput.placeAll_eq hstart rfl objectTokens
  obtain ⟨w₂, hplace₂, hw₂⟩ := WriteInput.place_eq hw₁.streamed hw₁.body arrayTokens
  obtain ⟨w₃, hplace₃, hw₃⟩ := WriteInput.place_eq hw₂.streamed hw₂.body rootTokens
  have hwire : c.input.config.wire.valueStreams = c.input.config.valueStreams := rfl
  simp only [hwire, hplace₁, hplace₂, hplace₃] at h₈
  obtain ⟨streams, hstreams, h₉⟩ := bind_eq_ok.mp h₈
  obtain ⟨objects, hobjects, h₁₀⟩ := bind_eq_ok.mp h₉
  obtain ⟨arrays, harrays, h₁₁⟩ := bind_eq_ok.mp h₁₀
  obtain ⟨root, hroot, h₁₂⟩ := bind_eq_ok.mp h₁₁
  refine ⟨{ directory, tagBytes, tags, stringBytes, strings, objectTokens, arrayTokens, rootTokens,
            w := w₃, streams, objects, arrays, root,
            writes_directory := hdirectory, writes_tags := htagBytes, frames_tags := htags,
            writes_strings := hstringBytes, frames_strings := hstrings,
            writes_objects := List.forall₂_map_left_iff.mp hsections,
            writes_arrays := harrayTokens, writes_root := hrootTokens,
            sent := ?_, writes_streams := hstreams,
            frames_objects := frames_of_mapM hsections.length_eq hobjects,
            frames_arrays := harrays, frames_root := hroot, bytes_eq := ?_ }⟩
  · have hstreamed := hw₃.streamed
    rw [List.append_assoc, List.append_assoc] at hstreamed
    refine ⟨hstreamed, hw₃.body, ?_⟩
    have held₁ := hw₁.held
    have held₂ := hw₂.held
    have held₃ := hw₃.held
    simp only [Token.allBytes_append, List.length_append]
    omega
  · rw [← Except.ok.inj h₁₂]
    simp only [List.append_assoc]

namespace Layout

variable (l : c.Layout bytes)

/-- What stands behind the strings. -/
def rest : List UInt8 := l.streams ++ (l.objects.flatten ++ (l.arrays ++ l.root))

/-- The tokens of all sections. -/
def tokens : List Token := l.objectTokens.flatten ++ (l.arrayTokens ++ l.rootTokens)

/-- The sections of the objects, each in a frame. -/
theorem length_objects : l.objects.flatten.length = 8 * l.objectTokens.length +
    (l.objectTokens.map fun tokens => (sectionBytes c.input.config.valueStreams tokens).length).sum := by
  have h := l.frames_objects
  generalize l.objectTokens = sections at h
  generalize l.objects = parts at h
  induction h with
  | nil => rfl
  | cons hpart _ ih =>
      obtain ⟨label, hframe⟩ := hpart
      have hlength := (lt_of_frame hframe).2
      rw [List.map_cons, List.sum_cons, List.flatten_cons, List.length_append, List.length_cons]
      omega

/-- What the stream section adds to the bytes of the streams: their number and, for each, its tag
and a frame. -/
def streamOverhead (w : StreamWriter) (streams : Bool) : Nat :=
  if streams then 4 + 12 * w.filled.length else 0

/-- Streams in frames, each behind its tag. -/
theorem length_taggedFrames {filled : List (Nat × List UInt8)} {parts : List (List UInt8)}
    (h : List.Forall₂ (fun stream part => ∃ label framed,
      WriteInput.frame label stream.2 = .ok framed ∧ Bytes.fixed 4 stream.1 ++ framed = part)
      filled parts) :
    parts.flatten.length = 12 * filled.length + (filled.map fun p => p.2.length).sum := by
  induction h with
  | nil => rfl
  | cons hpart _ ih =>
      obtain ⟨label, framed, hframe, rfl⟩ := hpart
      have hlength := (lt_of_frame hframe).2
      rw [List.map_cons, List.sum_cons, List.flatten_cons, List.length_append, List.length_append,
        Bytes.length_fixed, List.length_cons]
      omega

/-- When the last section has been taken out, what is held is in the streams. -/
theorem held_eq : l.w.held = (l.w.filled.map fun p => p.2.length).sum := by
  rw [StreamWriter.held, l.sent.body, StreamWriter.sum_filled]
  exact Nat.zero_add _

/-- The stream section holds all bytes of the streams. -/
theorem length_streams :
    l.streams.length = streamOverhead l.w c.input.config.valueStreams + l.w.held := by
  rw [l.held_eq]
  have h := l.writes_streams
  have hwire : c.writer.wire.valueStreams = c.input.config.valueStreams := rfl
  rw [WriteInput.streamSection, hwire] at h
  cases hstreams : c.input.config.valueStreams with
  | false =>
      simp only [hstreams, Bool.not_false, if_true] at h
      rw [← Except.ok.inj h]
      simp [streamOverhead, StreamWriter.filled, l.sent.streamed.disabled hstreams]
  | true =>
      simp only [hstreams, Bool.not_true, Bool.false_eq_true, if_false] at h
      obtain ⟨count, hcount, h₁⟩ := bind_eq_ok.mp h
      obtain ⟨parts, hparts, h₂⟩ := bind_eq_ok.mp h₁
      have hlengths := length_taggedFrames ((mapM_eq_ok.mp hparts).imp fun stream part hpart => by
        obtain ⟨framed, hframe, h₃⟩ := bind_eq_ok.mp hpart
        exact ⟨_, framed, hframe, Except.ok.inj h₃⟩)
      rw [← Except.ok.inj h₂, List.length_append, (lt_of_ofCount hcount).2, Bytes.length_fixed,
        hlengths, streamOverhead, if_pos rfl, Nat.add_assoc]

/-- No byte of a token is lost. -/
theorem length_rest : l.rest.length = streamOverhead l.w c.input.config.valueStreams +
    8 * (l.objectTokens.length + 2) + (allBytes l.tokens).length := by
  have hsent := l.sent.held
  have hobjects := l.length_objects
  have harrays := (lt_of_frame l.frames_arrays).2
  have hroot := (lt_of_frame l.frames_root).2
  have hstreams := l.length_streams
  have hstart : (StreamWriter.start c.input.config.valueStreams).held = 0 := by
    cases c.input.config.valueStreams <;> rfl
  rw [hstart, Nat.zero_add] at hsent
  simp only [tokens, rest, List.length_append]
  omega

theorem length_allBytes_le : (allBytes l.tokens).length ≤ l.rest.length :=
  l.length_rest ▸ Nat.le_add_left _ _

theorem length_tableCount {table : UniqueTable NodeId} {count : List UInt8}
    (h : WriteInput.tableCount table = .ok count) : count.length = 4 := by
  obtain ⟨order, -, hcount⟩ := bind_eq_ok.mp h
  rw [(lt_of_ofCount hcount).2, Bytes.length_fixed]

/-- A partitioned directory holds eight bytes for every object table. -/
theorem length_directoryTables {tables : List ObjectTable} {parts : List (List UInt8)}
    (h : tables.mapM c.writer.directoryTable = .ok parts) :
    parts.flatten.length = 8 * tables.length := by
  have hall := mapM_eq_ok.mp h
  clear h
  induction hall with
  | nil => rfl
  | cons hpart _ ih =>
      obtain ⟨index, -, h₁⟩ := bind_eq_ok.mp hpart
      obtain ⟨count, hcount, h₂⟩ := bind_eq_ok.mp h₁
      rw [List.flatten_cons, List.length_append, ← Except.ok.inj h₂, List.length_append,
        Bytes.length_fixed, length_tableCount hcount, ih, List.length_cons]
      omega

/-- How many bytes the directory has for the object tables. -/
def directoryObjectsLength (partitioned : Bool) (tables : Nat) : Nat :=
  if partitioned then 4 + 8 * tables else 4

theorem length_directoryObjects {objects : List UInt8}
    (h : c.writer.directoryObjects = .ok objects) :
    objects.length = directoryObjectsLength c.input.config.partitionedTables
      c.module.objects.tables.length := by
  have hwire : c.writer.wire.partitionedTables = c.input.config.partitionedTables := rfl
  rw [WriteInput.directoryObjects, hwire] at h
  cases hp : c.input.config.partitionedTables with
  | true =>
      simp only [hp, if_true] at h
      obtain ⟨count, hcount, h₁⟩ := bind_eq_ok.mp h
      obtain ⟨parts, hparts, h₂⟩ := bind_eq_ok.mp h₁
      rw [← Except.ok.inj h₂, List.length_append, (lt_of_ofCount hcount).2, Bytes.length_fixed,
        length_directoryTables hparts]
      rfl
  | false =>
      simp only [hp, Bool.false_eq_true, if_false] at h
      split at h
      · exact length_tableCount h
      · rw [(lt_of_ofCount h).2, Bytes.length_fixed]
        rfl

theorem length_directory : l.directory.length = 12 +
    directoryObjectsLength c.input.config.partitionedTables c.module.objects.tables.length := by
  obtain ⟨tags, htags, h₁⟩ := bind_eq_ok.mp l.writes_directory
  obtain ⟨strings, hstrings, h₂⟩ := bind_eq_ok.mp h₁
  obtain ⟨arrays, harrays, h₃⟩ := bind_eq_ok.mp h₂
  obtain ⟨objects, hobjects, h₄⟩ := bind_eq_ok.mp h₃
  rw [← Except.ok.inj h₄]
  simp only [List.length_append, (lt_of_ofCount htags).2, (lt_of_ofCount hstrings).2,
    (lt_of_ofCount harrays).2, Bytes.length_fixed, length_directoryObjects hobjects]

/-- The tags and the strings stand in frames between the directory and what `rest` holds. -/
theorem length_bytes : bytes.length = c.writer.header.length + l.directory.length +
    l.tagBytes.length + l.stringBytes.length + 16 + l.rest.length := by
  have htags := (lt_of_frame l.frames_tags).2
  have hstrings := (lt_of_frame l.frames_strings).2
  have hbytes : bytes.length = (c.writer.header ++ (l.directory ++ (l.tags ++
      (l.strings ++ l.rest)))).length := congrArg List.length l.bytes_eq
  simp only [List.length_append] at hbytes
  omega

variable (hb : Built c.input c.shapes c.rank c.module) (hr : c.input.registry.Valid)
include hb hr

/-- All tokens are proper, and there is one for every entry of a table. -/
theorem sectionTokens : Built.SectionTokens c.shapes c.order.length l.tokens := by
  have harrays := (hb.writes_arraySection hr).result _ l.writes_arrays
  have hroot : Built.SectionTokens c.shapes 0 l.rootTokens :=
    ⟨(hb.writes_rootSection hr).result _ l.writes_root, Nat.zero_le _⟩
  have htables := (List.forall₂_and_left c.module.objects.tables l.objectTokens).mpr
    ⟨fun _ htable => htable, l.writes_objects⟩
  have hobjects := Built.SectionTokens.flatten (htables.imp
    (S := fun (table : ObjectTable) tokens =>
      Built.SectionTokens c.shapes table.table.keys.length tokens)
    fun table tokens h => (hb.writes_objectSection hr h.1).result _ h.2)
  rw [Replay.order, List.length_append, length_flatMap_keys]
  exact hobjects.append (harrays.append hroot)

/-- There are enough bytes for the entries of all tables. -/
theorem room : c.order.length ≤ l.rest.length := by
  have h := l.sectionTokens hb hr
  have hbytes := Token.length_le_allBytes fun token htoken => (h.proper token htoken).bytes_ne_nil
  exact Nat.le_trans h.entries_le (Nat.le_trans hbytes l.length_allBytes_le)

end Layout

end Replay

end Module

end SyntaxPack
