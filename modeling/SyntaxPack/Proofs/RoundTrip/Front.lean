import SyntaxPack.Proofs.Decode.Setup
import SyntaxPack.Proofs.Local
import SyntaxPack.Proofs.RoundTrip.Sections
/-!
# SyntaxPack.Proofs.RoundTrip.Front

The front of a module is read back: the header, the directory, the tags and the strings.

Nothing here depends on value streams, and every count of the directory is that of a table
that follows. The one check that looks ahead is on the number of nodes, which must not exceed
the number of bytes behind the strings; that these are enough is a hypothesis here.

Two forms of statement are used. What is read without a state, from the front of the bytes, is
said to take its bytes whatever follows them (`Read.Takes`). What is read as a section goes
through the state of the decoder: it has a body of its own and must use it up, and the state is
otherwise as before (`InFront`).

The last two lemmas say the same of the whole front in two ways. If there are enough bytes behind
it, the front is read (`run_readInput`), and whenever it is read, there is only one thing that it
can be read as (`eq_decoder_of_readInput`). The second needs no room, so it can be used of a module
that is known to be decoded.
-/

namespace SyntaxPack

namespace Module

open Read

/-! ### The header

The magic bytes, the name of the format, and two bytes for the layout. -/

theorem takes_readLayout (wire : WireFormat) :
    readLayout.Takes [wire.indexEncoding.toByte, wire.flags] wire := by
  refine @Takes.bind _ _ _ _ [_] [_] _ _ (takes_byte wire.indexEncoding.toByte) ?_
  simp only [IndexEncoding.ofByte?_toByte]
  refine @Takes.bind _ _ _ _ [_] [] _ _ (takes_byte wire.flags) ?_
  simp only [WireFormat.ofFlags?_flags]
  exact takes_pure wire

theorem takes_readHeader (input : WriteInput) : readHeader.Takes input.header input.wire := by
  have hname : text.Takes (Bytes.ofText formatName) formatName := takes_text (by decide)
  have hrest : Takes (do
      if formatName ≠ formatName then Read.fail (.formatMismatch formatName formatName)
      readLayout) [input.wire.indexEncoding.toByte, input.wire.flags] input.wire := by
    simpa using takes_readLayout input.wire
  rw [WriteInput.header, List.append_assoc]
  exact takes_readMagic.bind (hname.bind hrest)

/-! ### The directory

Counts of four bytes each. Before the entries of the object tables are read, their number is checked
against the bytes that are left, so a lie about it costs no memory. -/

theorem takes_readDirectoryTable {table : Nat × Nat} (htag : table.1 < UInt32.size)
    (hcount : table.2 < UInt32.size) :
    readDirectoryTable.Takes (Bytes.fixed 4 table.1 ++ Bytes.fixed 4 table.2) table := by
  have hpair := (takes_nat32 hcount).map fun count => (table.1, count)
  exact (takes_nat32 htag).bind hpair

/-- The tables of a directory are read back. There are at least as many bytes as the check asks for,
because they are the tables themselves. -/
theorem takes_readDirectoryTables {tables : List (Nat × Nat)} (hlength : tables.length < UInt32.size)
    (h : ∀ table ∈ tables, table.1 < UInt32.size ∧ table.2 < UInt32.size) :
    readDirectoryTables.Takes (Bytes.fixed 4 tables.length ++
      tables.flatMap fun table => Bytes.fixed 4 table.1 ++ Bytes.fixed 4 table.2) tables := by
  intro rest offset
  have hcount := takes_nat32 hlength
    ((tables.flatMap fun table => Bytes.fixed 4 table.1 ++ Bytes.fixed 4 table.2) ++ rest) offset
  have htables := @takes_replicate _ _ tables
    (fun table => Bytes.fixed 4 table.1 ++ Bytes.fixed 4 table.2)
    (fun table htable => takes_readDirectoryTable (h table htable).1 (h table htable).2) rest
    (offset + (Bytes.fixed 4 tables.length).length)
  -- each table has eight bytes, so the check before them passes
  have hbytes : (tables.flatMap fun table => Bytes.fixed 4 table.1 ++ Bytes.fixed 4 table.2).length =
      8 * tables.length := by
    clear hlength h hcount htables
    induction tables with
    | nil => rfl
    | cons table tables ih =>
        rw [List.flatMap_cons, List.length_append, List.length_append, Bytes.length_fixed,
          Bytes.length_fixed, ih, List.length_cons]
        omega
  have hroom : ¬ ((8 * tables.length + rest.length) / 8 < tables.length) := by omega
  rw [readDirectoryTables, List.append_assoc, run_bind_of_ok hcount]
  rw [run_bind_of_ok (show (get : Read Reader) _ = .ok _ _ from run_get)]
  simp only [Reader.remaining, List.length_append, hbytes, hroom, if_false]
  rw [htables, hbytes, Nat.add_assoc]

/-! ### Reading from the front and from a section

The state is followed by equations: `withBody` says where in the section the reader stands, and all
the rest of the state stays as it is. -/

/-- A state whose section is at another place. -/
def DecodeState.withBody (s : DecodeState) (body : Reader) : DecodeState :=
  { s with source := { s.source with body := body } }

variable {α : Type} {s : DecodeState} {read : Read α} {bytes rest : List UInt8} {a : α}
  {offset : Nat} {registry : Registry} {shapes : List ShapeId}

/-- A state in front of the value streams, with certain bytes still to be read: no section is open,
and there are no streams yet. -/
structure InFront (rest : List UInt8) (s : DecodeState) : Prop where
  unread : s.input.unread = rest
  body : s.source.body.unread = []
  streams : s.source.streams = none

theorem inFront_start (bytes : List UInt8) : InFront bytes (Decode.start bytes) := ⟨rfl, rfl, rfl⟩

theorem InFront.fromInput (hs : InFront (bytes ++ rest) s) (h : read.Takes bytes a) :
    ∃ t, Decode.fromInput read s = .ok a t ∧ InFront rest t := by
  have hread := h rest s.input.offset
  rw [← hs.unread] at hread
  exact ⟨_, Decode.fromInput_eq_ok.mpr ⟨_, hread, rfl⟩, rfl, hs.body, hs.streams⟩

theorem run_fromSection_of_takes (h : read.Takes bytes a)
    (hs : s.source.body = ⟨bytes ++ rest, offset⟩) :
    Decode.fromSection read s = .ok a (s.withBody ⟨rest, offset + bytes.length⟩) :=
  Decode.fromSection_eq_ok.mpr ⟨_, hs ▸ h rest offset, rfl⟩

theorem run_count {label : String} {count : Nat} (h : count < UInt32.size)
    (hs : s.source.body = ⟨Bytes.fixed 4 count ++ rest, offset⟩) :
    Decode.count label count s = .ok () (s.withBody ⟨rest, offset + (Bytes.fixed 4 count).length⟩) :=
  Decode.count_eq_ok.mpr ⟨_, hs ▸ takes_nat32 h rest offset, rfl⟩

/-- A section is read from its own bytes alone, so its content may be given by a run from any state
with that body. It must leave nothing of the body. -/
theorem run_inSection {label label' : String} {content : Decode α} {body framed : List UInt8}
    (hs : s.input.unread = framed ++ rest) (hframe : WriteInput.frame label' body = .ok framed)
    (hcontent : ∀ u origin, u.source.body = ⟨body, origin⟩ →
      ∃ last, content u = .ok a (u.withBody ⟨[], last⟩)) :
    ∃ offset last, Decode.inSection label content s =
      .ok a ({ s with input := ⟨rest, offset⟩ }.withBody ⟨[], last⟩) := by
  have hread := run_substream (mapError_eq_ok.mp hframe) rest s.input.offset
  rw [← hs] at hread
  obtain ⟨last, hrun⟩ := hcontent ({ s with
    input := ⟨rest, s.input.offset + framed.length⟩ }.withBody ⟨body, s.input.offset + 4⟩) _ rfl
  exact ⟨_, last, Decode.inSection_eq_ok.mpr ⟨_, _, hread, hrun, rfl⟩⟩

theorem InFront.inSection {label label' : String} {content : Decode α} {body framed : List UInt8}
    (hs : InFront (framed ++ rest) s) (hframe : WriteInput.frame label' body = .ok framed)
    (hcontent : ∀ u origin, u.source.body = ⟨body, origin⟩ →
      ∃ last, content u = .ok a (u.withBody ⟨[], last⟩)) :
    ∃ t, Decode.inSection label content s = .ok a t ∧ InFront rest t := by
  obtain ⟨_, _, hrun⟩ := run_inSection hs.unread hframe hcontent
  exact ⟨_, hrun, rfl, rfl, hs.streams⟩

theorem lt_of_ofCount {label : String} {count : Nat}
    (h : (Bytes.ofCount label count).mapError Error.encode = .ok bytes) :
    count < UInt32.size ∧ bytes = Bytes.fixed 4 count :=
  Bytes.ofCount_eq_ok_iff.mp (mapError_eq_ok.mp h)

/-- What a frame holds is shorter than `2 ^ 32` bytes. -/
theorem lt_of_frame {label : String} {body : List UInt8} (h : WriteInput.frame label body = .ok bytes) :
    body.length < UInt32.size ∧ bytes.length = body.length + 8 := by
  obtain ⟨hlt, rfl⟩ := Bytes.framed_eq_ok_iff.mp (mapError_eq_ok.mp h)
  refine ⟨hlt, ?_⟩
  simp only [List.length_append, Bytes.length_fixed]
  omega

theorem length_le_ofText (texts : List String) {text : String} (h : text ∈ texts) :
    (Utf8.encode text).length ≤ (texts.flatMap Bytes.ofText).length := by
  obtain ⟨before, after, rfl⟩ := List.append_of_mem h
  simp only [List.flatMap_append, List.flatMap_cons, List.length_append, Bytes.ofText]
  omega

/-! ### The tags

The tag table lists builtin tags first, each checked against its seed, then shapes by name. Both are
cases of one list here, `tagsOf`. -/

/-- The entry at a position of the tag table is read as the tag there. For a builtin tag the
position decides and the name is compared; for a shape the name decides. -/
theorem run_readTagEntry (hr : registry.Valid)
    (hshapes : ∀ shape ∈ shapes, shape.index < registry.shapes.length) {index : Nat} {tag : Tag}
    (htag : (tagsOf shapes)[index]? = some tag)
    (hsize : (Utf8.encode (registry.tagName tag)).length < 2 ^ 64)
    (hs : s.source.body = ⟨Bytes.ofText (registry.tagName tag) ++ rest, offset⟩) :
    readTagEntry registry index s =
      .ok tag (s.withBody ⟨rest, offset + (Bytes.ofText (registry.tagName tag)).length⟩) := by
  have hname := run_fromSection_of_takes (takes_text hsize) hs
  have hoffset : Decode.offset s = .ok s.source.body.offset s := Decode.offset_eq_ok.mpr ⟨rfl, rfl⟩
  rw [readTagEntry, run_bind_of_ok hoffset, run_bind_of_ok hname]
  cases hbuiltin : Builtin.ofIndex? index with
  | some b =>
      have hget : (tagsOf shapes)[index]? = some (.builtin b) := by
        rw [tagsOf, List.getElem?_append_left, List.getElem?_map, ← Builtin.ofIndex?, hbuiltin,
          Option.map_some]
        simpa using (List.getElem?_eq_some_iff.mp hbuiltin).1
      obtain rfl := Option.some.inj (hget.symm.trans htag)
      simp [Registry.tagName, Decode.ensure]
  | none =>
      have hle : Builtin.all.length ≤ index := List.getElem?_eq_none_iff.mp hbuiltin
      rw [tagsOf, List.getElem?_append_right (by simpa using hle), List.getElem?_map] at htag
      obtain ⟨shape, hget, rfl⟩ := Option.map_eq_some_iff.mp htag
      have hrequire : registry.require (registry.tagName (.shape shape)) = .ok shape :=
        Registry.require_eq_ok.mpr (hr.lookup_shapeName (hshapes shape (List.mem_of_getElem? hget)))
      simp only [hrequire]
      rfl

/-- The tag table is read back. The invariant of the loop is that what has been read is the front of
the list, and what is left of the section are the names of the others. -/
theorem run_readTagTable (hr : registry.Valid)
    (hshapes : ∀ shape ∈ shapes, shape.index < registry.shapes.length)
    (hcount : (tagsOf shapes).length < UInt32.size) {names : List UInt8}
    (hnames : names = ((tagsOf shapes).map registry.tagName).flatMap Bytes.ofText)
    (hsize : names.length < 2 ^ 64)
    (hs : s.source.body = ⟨Bytes.fixed 4 (tagsOf shapes).length ++ names, offset⟩) :
    ∃ last, readTagTable registry (tagsOf shapes).length s =
      .ok (tagsOf shapes) (s.withBody ⟨[], last⟩) := by
  subst hnames
  -- The invariant is given with the state that it holds in, for the loop is over states.
  obtain ⟨tags, t, hrun, hlength, htags, last, rfl⟩ := @Decode.replicate_progress Tag
    (s.withBody ⟨((tagsOf shapes).map registry.tagName).flatMap Bytes.ofText, offset + 4⟩)
    (fun done t => done = (tagsOf shapes).take done.length ∧ ∃ start, t = s.withBody
      ⟨(((tagsOf shapes).drop done.length).map registry.tagName).flatMap Bytes.ofText, start⟩)
    (tagsOf shapes).length (readTagEntry registry) ⟨rfl, _, rfl⟩
    fun done t hlt ⟨hdone, start, ht⟩ => by
      have hget := List.getElem?_eq_getElem hlt
      have hmem : registry.tagName (tagsOf shapes)[done.length] ∈
          (tagsOf shapes).map registry.tagName := List.mem_map_of_mem (List.getElem_mem hlt)
      have hfits := Nat.lt_of_le_of_lt (length_le_ofText _ hmem) hsize
      rw [List.drop_eq_getElem_cons hlt, List.map_cons, List.flatMap_cons] at ht
      have hbody : t.source.body = ⟨Bytes.ofText (registry.tagName (tagsOf shapes)[done.length]) ++
          (((tagsOf shapes).drop (done.length + 1)).map registry.tagName).flatMap Bytes.ofText,
          start⟩ := by
        rw [ht]
        rfl
      refine ⟨_, _, run_readTagEntry hr hshapes hget hfits hbody, ?_,
        start + (Bytes.ofText (registry.tagName (tagsOf shapes)[done.length])).length, ?_⟩
      · rw [List.length_append, List.length_singleton, ← List.take_append_getElem hlt, ← hdone]
      · rw [ht, List.length_append, List.length_singleton]
        rfl
  refine ⟨last, ?_⟩
  rw [readTagTable, run_bind_of_ok (run_count hcount hs)]
  rw [hlength, List.take_length] at htags
  rw [hlength, List.drop_length] at hrun
  exact htags ▸ hrun

/-! ### The strings

Strings are as many as the directory says, and are read in one piece. -/

theorem run_readStringTable {strings : List String} (hcount : strings.length < UInt32.size)
    (hsize : (strings.flatMap Bytes.ofText).length < 2 ^ 64)
    (hs : s.source.body = ⟨Bytes.fixed 4 strings.length ++ strings.flatMap Bytes.ofText, offset⟩) :
    ∃ last, readStringTable strings.length s = .ok strings (s.withBody ⟨[], last⟩) := by
  have htexts : ∀ text ∈ strings, Read.text.Takes (Bytes.ofText text) text := fun text htext =>
    takes_text (Nat.lt_of_le_of_lt (length_le_ofText strings htext) hsize)
  have hread := @run_fromSection_of_takes _
    (s.withBody ⟨strings.flatMap Bytes.ofText, offset + (Bytes.fixed 4 strings.length).length⟩)
    _ _ [] _ _ (takes_replicate htexts) (by rw [List.append_nil]; rfl)
  refine ⟨offset + (Bytes.fixed 4 strings.length).length + (strings.flatMap Bytes.ofText).length, ?_⟩
  rw [readStringTable, run_bind_of_ok (run_count hcount hs)]
  exact hread

namespace Replay

variable {c : Replay}

/-! ### The counts of a module

The directory as the decoder sees it, computed from the tables, and that the bytes written for it
are those of this directory. That counts are below `2 ^ 32` comes from the writing: it would have
failed otherwise. -/

/-- The object tables in the directory of the module. -/
def objectDirectory (c : Replay) : ObjectDirectory :=
  if c.input.config.partitionedTables then
    .partitioned (c.module.objects.tables.map fun table =>
      ((tagsOf c.shapes).idxOf (WriteInput.slotTag table.shape), table.table.keys.length))
  else .shared c.objectCount

/-- The directory of the module, with the number of keys for each of its tables. -/
def directory (c : Replay) : Directory where
  tags := (tagsOf c.shapes).length
  strings := c.module.strings.keys.length
  arrays := c.module.arrays.keys.length
  objects := c.objectDirectory

theorem objectEntries_directory (c : Replay) : c.directory.objectEntries = c.objectCount := by
  rw [Directory.objectEntries, directory, objectDirectory, objectCount]
  split
  · simp [ObjectDirectory.counts, List.sum, Function.comp_def]
  · simp [ObjectDirectory.counts]

theorem tableCount_eq_ok (hb : c.IsBuilt) {table : ObjectTable}
    (htable : table ∈ c.module.objects.tables) (h : WriteInput.tableCount table.table = .ok bytes) :
    table.table.keys.length < UInt32.size ∧ bytes = Bytes.fixed 4 table.table.keys.length := by
  obtain ⟨shape, ht, -⟩ := hb.filled.wellShaped.exists_table? htable
  obtain ⟨order, horder, hlength⟩ := (hb.objects shape _ ht).order
  simp only [WriteInput.tableCount, Table.indexed, horder, Except.mapError, ok_bind] at h
  rw [hlength] at h
  exact lt_of_ofCount h

/-- A table of the directory has the index of its tag, which is one of the tags. -/
theorem directoryTable_eq_ok (hb : c.IsBuilt) (hp : c.module.objects.partitioned = true)
    {table : ObjectTable} (htable : table ∈ c.module.objects.tables)
    (h : c.writer.directoryTable table = .ok bytes) :
    (tagsOf c.shapes).idxOf (WriteInput.slotTag table.shape) < (tagsOf c.shapes).length ∧
      table.table.keys.length < UInt32.size ∧
      bytes = Bytes.fixed 4 ((tagsOf c.shapes).idxOf (WriteInput.slotTag table.shape)) ++
        Bytes.fixed 4 table.table.keys.length := by
  obtain ⟨shape, hmem, hshape⟩ := hb.mem_shapes_of_table hp htable
  obtain ⟨index, hindex, h₁⟩ := bind_eq_ok.mp h
  obtain ⟨count, hcount, h₂⟩ := bind_eq_ok.mp h₁
  obtain ⟨hlt, rfl⟩ := tableCount_eq_ok hb htable hcount
  obtain rfl := Except.ok.inj h₂
  rw [hshape, WriteInput.slotTag, Option.elim_some] at hindex ⊢
  have hlisted := mem_tagsOf_shape.mpr hmem
  have hget := (hb.tags.tagIndex_eq_ok_iff _ _ (hb.filled.tags.registered_of_mem hlisted)).mp
    (mapError_eq_ok.mp hindex)
  have hidx := List.idxOf_lt_length_of_mem hlisted
  -- The tags have no repetitions, so the index that is written is the only one with this tag.
  have hsame : (tagsOf c.shapes).idxOf (.shape shape) = index := by
    obtain ⟨hlt, heq⟩ := List.getElem?_eq_some_iff.mp hget
    refine (nodup_tagsOf hb.tags.nodup).getElem_inj_iff.mp ((List.getElem_idxOf hidx).trans heq.symm)
  exact ⟨hidx, hlt, by rw [hsame]⟩

theorem directoryTables_eq (hb : c.IsBuilt) (hp : c.module.objects.partitioned = true)
    {tables : List ObjectTable} {parts : List (List UInt8)}
    (h : List.Forall₂ (fun table part => table ∈ c.module.objects.tables ∧
      c.writer.directoryTable table = .ok part) tables parts) :
    parts.flatten = (tables.map fun table =>
        ((tagsOf c.shapes).idxOf (WriteInput.slotTag table.shape), table.table.keys.length)).flatMap
      fun entry => Bytes.fixed 4 entry.1 ++ Bytes.fixed 4 entry.2 := by
  rw [List.flatMap_map]
  induction h with
  | nil => rfl
  | cons hhead _ ih =>
      rw [List.flatten_cons, List.flatMap_cons, ih, (directoryTable_eq_ok hb hp hhead.1 hhead.2).2.2]

/-- The object tables of the directory are read back, as a list of tables or as the count of the
one. -/
theorem takes_readObjectDirectory (hb : c.IsBuilt) (htags : (tagsOf c.shapes).length < UInt32.size)
    (h : c.writer.directoryObjects = .ok bytes) :
    (readObjectDirectory c.input.config.wire).Takes bytes c.objectDirectory := by
  have hpartitioned := hb.partitioned
  rw [readObjectDirectory, objectDirectory]
  cases hp : c.input.config.partitionedTables with
  | true =>
      have hwire : c.input.config.wire.partitionedTables = true := hp
      rw [hp] at hpartitioned
      simp only [WriteInput.directoryObjects, hwire, if_true] at h ⊢
      obtain ⟨count, hcount, h₁⟩ := bind_eq_ok.mp h
      obtain ⟨parts, hparts, h₂⟩ := bind_eq_ok.mp h₁
      obtain rfl := Except.ok.inj h₂
      obtain ⟨hlength, rfl⟩ := lt_of_ofCount hcount
      have hall := (List.forall₂_and_left c.module.objects.tables parts).mpr
        ⟨fun _ htable => htable, mapM_eq_ok.mp hparts⟩
      have hbytes := directoryTables_eq hb hpartitioned hall
      have htables := @takes_readDirectoryTables (c.module.objects.tables.map fun table =>
          ((tagsOf c.shapes).idxOf (WriteInput.slotTag table.shape), table.table.keys.length))
        (by simpa using hlength) fun entry hentry => by
          obtain ⟨table, htable, rfl⟩ := List.mem_map.mp hentry
          obtain ⟨part, -, hmem, hpart⟩ := exists_right_of_forall₂ hall htable
          obtain ⟨hidx, hcount, -⟩ := directoryTable_eq_ok hb hpartitioned hmem hpart
          exact ⟨Nat.lt_trans hidx htags, hcount⟩
      rw [List.length_map] at htables
      rw [hbytes, map_eq_pure_bind]
      exact htables.map _
  | false =>
      have hwire : c.input.config.wire.partitionedTables = false := hp
      rw [hp] at hpartitioned
      obtain ⟨shared, hshared⟩ := hb.filled.wellShaped.shared hpartitioned
      simp only [WriteInput.directoryObjects, hwire, Bool.false_eq_true, if_false, hshared] at h ⊢
      obtain ⟨hlt, rfl⟩ := tableCount_eq_ok hb (by rw [hshared]; exact List.mem_singleton_self _) h
      have hcount : c.objectCount = shared.keys.length := by simp [objectCount, hshared]
      rw [hcount, map_eq_pure_bind]
      exact (takes_nat32 hlt).map _

/-- The directory that is written is that of the tables. -/
theorem takes_readDirectory (hb : c.IsBuilt) (h : c.writer.directory = .ok bytes) :
    (tagsOf c.shapes).length < UInt32.size ∧
      (readDirectory c.input.config.wire).Takes bytes c.directory := by
  obtain ⟨tags, htags, h₁⟩ := bind_eq_ok.mp h
  obtain ⟨strings, hstrings, h₂⟩ := bind_eq_ok.mp h₁
  obtain ⟨arrays, harrays, h₃⟩ := bind_eq_ok.mp h₂
  obtain ⟨objects, hobjects, h₄⟩ := bind_eq_ok.mp h₃
  obtain rfl := Except.ok.inj h₄
  obtain ⟨htagsLt, rfl⟩ := lt_of_ofCount htags
  obtain ⟨hstringsLt, rfl⟩ := lt_of_ofCount hstrings
  obtain ⟨harraysLt, rfl⟩ := lt_of_ofCount harrays
  rw [hb.tags.size] at htagsLt ⊢
  rw [← hb.string_count] at hstringsLt ⊢
  rw [← hb.array_count] at harraysLt ⊢
  rw [List.append_assoc, List.append_assoc]
  refine ⟨htagsLt, (takes_nat32 htagsLt).bind ((takes_nat32 hstringsLt).bind
    ((takes_nat32 harraysLt).bind ?_))⟩
  exact (takes_readObjectDirectory hb htagsLt hobjects).map _

/-! ### The nodes of the tables

Before anything is read into them, the tables get their places among the nodes, one table behind the
other and the arrays last. -/

/-- The tables are set up where their tags say, by induction on the tables with the place of the
first. -/
theorem objectSlots_slotsOf {registry : Registry} {offset first : Nat} {tables : List ObjectTable}
    (h : ∀ table ∈ tables, ∃ shape ∈ shapes, table.shape = some shape) :
    objectSlots registry (tagsOf shapes).toArray offset first (tables.map fun table =>
        (some ((tagsOf shapes).idxOf (WriteInput.slotTag table.shape)), table.table.keys.length)) =
      .ok (slotsOf registry first tables) := by
  induction tables generalizing first with
  | nil => rfl
  | cons table tables ih =>
      obtain ⟨shape, hmem, hshape⟩ := h table List.mem_cons_self
      have hlt := List.idxOf_lt_length_of_mem (mem_tagsOf_shape.mpr hmem)
      have hget : (tagsOf shapes).toArray[(tagsOf shapes).idxOf (.shape shape)]? =
          some (.shape shape) := by
        rw [List.getElem?_toArray, List.getElem?_eq_getElem hlt, List.getElem_idxOf]
      have htag : WriteInput.slotTag table.shape = .shape shape := by rw [hshape]; rfl
      rw [List.map_cons, objectSlots, htag, hget]
      simp only [ih fun other hother => h other (List.mem_cons_of_mem _ hother), ok_bind, slotsOf,
        hshape, Option.elim_some, Function.comp]

theorem objectSlots_directory (hb : c.IsBuilt) (offset : Nat) :
    objectSlots c.input.registry (tagsOf c.shapes).toArray offset 0 c.directory.objects.entries =
      .ok c.decoder.tables := by
  have hpartitioned := hb.partitioned
  rw [directory, objectDirectory]
  cases hp : c.input.config.partitionedTables with
  | true =>
      rw [hp] at hpartitioned
      rw [if_pos rfl, ObjectDirectory.entries, List.map_map]
      exact objectSlots_slotsOf fun table htable => hb.mem_shapes_of_table hpartitioned htable
  | false =>
      rw [hp] at hpartitioned
      obtain ⟨shared, hshared⟩ := hb.filled.wellShaped.shared hpartitioned
      simp [ObjectDirectory.entries, objectSlots, hshared, objectCount, slotsOf]

/-- The tables are set up if there are enough bytes for all of their nodes. -/
theorem run_allocate (hb : c.IsBuilt) (hs : InFront rest s) (hroom : c.order.length ≤ rest.length) :
    ∃ t, allocate c.input.registry c.directory (tagsOf c.shapes).toArray s =
      .ok c.decoder.tables t ∧ InFront rest t := by
  have hentries : c.directory.nodeEntries ≤ s.input.remaining := by
    rw [Directory.nodeEntries, objectEntries_directory, Reader.remaining, hs.unread]
    rw [Replay.order, List.length_append, length_flatMap_keys] at hroom
    exact hroom
  refine ⟨{ s with nodes := blankNodes c.input.registry c.decoder.tables c.directory.arrays }, ?_,
    hs.unread, hs.body, hs.streams⟩
  rw [allocate, run_bind_of_ok (show (get : Decode DecodeState) s = .ok s s from run_get)]
  rw [run_bind_of_ok (show Decode.ensure _ _ s = .ok () s from
    Decode.ensure_eq_ok.mpr ⟨hentries, rfl⟩)]
  rw [run_bind_of_ok (Decode.check_eq_ok.mpr ⟨objectSlots_directory hb s.input.offset, rfl⟩)]
  rfl

/-! ### All of the front

The hypotheses are the bytes of each part as the writer made them, and how the module is put
together from them. -/

theorem tagSection_eq_ok (hb : c.IsBuilt) (h : c.writer.tagSection = .ok bytes) :
    bytes = Bytes.fixed 4 (tagsOf c.shapes).length ++
      ((tagsOf c.shapes).map c.input.registry.tagName).flatMap Bytes.ofText := by
  rw [hb.tags.tagSection_eq (show c.writer.module = c.module from rfl)] at h
  split at h
  · exact (Except.ok.inj h).symm
  · cases h

theorem stringSection_eq_ok (hb : c.IsBuilt) (h : c.writer.stringSection = .ok bytes) :
    c.module.strings.keys.length < UInt32.size ∧
      bytes = Bytes.fixed 4 c.module.strings.keys.length ++
        c.module.strings.keys.flatMap Bytes.ofText := by
  obtain ⟨order, horder, hlength⟩ := hb.strings.order
  have hkeys : order.filterMap c.module.strings.value? = c.module.strings.keys := by
    rw [Table.keys, horder, Option.getD_some]
  simp only [WriteInput.stringSection, Table.indexed, horder, Except.mapError, ok_bind, hkeys] at h
  obtain ⟨count, hcount, h₁⟩ := bind_eq_ok.mp h
  obtain ⟨hlt, rfl⟩ := lt_of_ofCount hcount
  rw [← hlength]
  exact ⟨hlt, (Except.ok.inj h₁).symm⟩

section

variable (hb : c.IsBuilt) (hr : c.input.registry.Valid)
  {directory tagBytes tags stringBytes strings : List UInt8}
  (hdirectory : c.writer.directory = .ok directory) (htagBytes : c.writer.tagSection = .ok tagBytes)
  (htags : WriteInput.frame "tags" tagBytes = .ok tags)
  (hstringBytes : c.writer.stringSection = .ok stringBytes)
  (hstrings : WriteInput.frame "strings" stringBytes = .ok strings)
  (hbytes : bytes = c.writer.header ++ (directory ++ (tags ++ (strings ++ rest))))
  (hsize : c.size = bytes.length)
include hb hr hdirectory htagBytes htags hstringBytes hstrings hbytes hsize

/-- Up to the strings, a module is read without regard to what follows. Then its tables are set up.
The equation leaves that last step open, since it is the one that looks ahead. -/
theorem readInput_eq : ∃ s, InFront rest s ∧ readInput c.input.registry (Decode.start bytes) =
    (do
      let tables ← allocate c.input.registry c.directory (tagsOf c.shapes).toArray
      pure { c.decoder with tables := tables } : Decode DecodeInput) s := by
  obtain ⟨htagsLt, htakes⟩ := takes_readDirectory hb hdirectory
  have htagsSize := (lt_of_frame htags).1
  have hstringsSize := (lt_of_frame hstrings).1
  rw [tagSection_eq_ok hb htagBytes] at htags htagsSize
  obtain ⟨hstringsLt, hstringsEq⟩ := stringSection_eq_ok hb hstringBytes
  rw [hstringsEq] at hstrings hstringsSize
  rw [List.length_append] at htagsSize hstringsSize
  have hsizes : UInt32.size < 2 ^ 64 := by decide
  have hremaining : (Decode.start bytes).input.remaining = c.size := hsize.symm
  -- Four parts, each from the state that the one before it leaves.
  obtain ⟨s₁, hrun₁, hs₁⟩ := (hbytes ▸ inFront_start bytes).fromInput (takes_readHeader c.writer)
  obtain ⟨s₂, hrun₂, hs₂⟩ := hs₁.fromInput htakes
  obtain ⟨s₃, hrun₃, hs₃⟩ := @InFront.inSection _ _ _ _ "tags" _
    (readTagTable c.input.registry (tagsOf c.shapes).length) _ _ hs₂ htags fun u origin hu =>
      run_readTagTable hr hb.tags.registered htagsLt rfl (by omega) hu
  obtain ⟨s₄, hrun₄, hs₄⟩ := @InFront.inSection _ _ _ _ "strings" _
    (readStringTable c.module.strings.keys.length) _ _ hs₃ hstrings fun u origin hu =>
      run_readStringTable hstringsLt (by omega) hu
  refine ⟨s₄, hs₄, ?_⟩
  rw [← hbytes] at hrun₁
  rw [readInput, run_bind_of_ok (show (get : Decode DecodeState) (Decode.start bytes) =
    .ok (Decode.start bytes) (Decode.start bytes) from run_get)]
  rw [run_bind_of_ok hrun₁, run_bind_of_ok hrun₂]
  rw [run_bind_of_ok (show Decode.inSection "tags" (readTagTable c.input.registry c.directory.tags)
    s₂ = _ from hrun₃)]
  rw [run_bind_of_ok (show Decode.inSection "strings" (readStringTable c.directory.strings)
    s₃ = _ from hrun₄), hremaining, objectEntries_directory]
  rfl

/-- The front of a module is read as what the decoder knows of the module. -/
theorem run_readInput (hroom : c.order.length ≤ rest.length) :
    ∃ s, readInput c.input.registry (Decode.start bytes) = .ok c.decoder s ∧ InFront rest s := by
  obtain ⟨s, hs, hread⟩ :=
    readInput_eq hb hr hdirectory htagBytes htags hstringBytes hstrings hbytes hsize
  obtain ⟨t, hrun, ht⟩ := run_allocate hb hs hroom
  refine ⟨t, ?_, ht⟩
  rw [hread, run_bind_of_ok hrun]
  rfl

/-- Whenever the front is read, it is as what the decoder knows of the module. -/
theorem eq_decoder_of_readInput {input : DecodeInput} {t : DecodeState}
    (h : readInput c.input.registry (Decode.start bytes) = .ok input t) : input = c.decoder := by
  obtain ⟨s, -, hread⟩ :=
    readInput_eq hb hr hdirectory htagBytes htags hstringBytes hstrings hbytes hsize
  rw [hread] at h
  obtain ⟨tables, u, hallocate, h₁⟩ := run_bind_eq_ok.mp h
  obtain ⟨rfl, -⟩ := run_pure_eq_ok.mp h₁
  obtain ⟨-, hslots, -⟩ := allocate_eq_ok hallocate
  rw [objectSlots_directory hb, Except.ok.injEq] at hslots
  rw [← hslots]

end

end Replay

end Module

end SyntaxPack
