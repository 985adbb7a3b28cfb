import SyntaxPack.Proofs.Decode.Setup
import SyntaxPack.Proofs.Exchange.Grown
/-!
# SyntaxPack.Proofs.Exchange.Opened

Setting up the tables side by side.

Tags stand in a module by the names of shapes. Two registries that agree on the shapes of
these names find them at positions that correspond, and set up the same tables and the
same nodes. What the decoder knows once it is set up is therefore `Alike`.

The lemmas go through the parts in front of the sections. Each is a `Phase`: what has not grown is
read alike, and what has grown is refused. The header and the directory stand in no frame and cannot
grow; the tables of tags and of strings can, and are refused at their end under their own names.
`Opening` is what the parts up to the tag table say without any registry, with names for tags, and
`Tells` ties it to what a registry makes of it.
-/

namespace SyntaxPack

namespace Module

open Segment

variable {registry registry' : Registry} {s s' t : DecodeState}

/-! ### The tag table

A registry is asked for the names of the tag table and for nothing else here, so agreement on these
names is all that the second registry needs. -/

/-- The tags in front of a tag table are built in, and all others are those of shapes that
are registered. -/
def TagAt (registry : Registry) (index : Nat) (tag : Tag) : Prop :=
  (index < Builtin.count ∧ ∃ b, tag = .builtin b) ∨
    (Builtin.count ≤ index ∧ ∃ id, tag = .shape id ∧
      registry.lookup (registry.shapeName id) = some id)

/-- An entry of the tag table is a name, and the tag is that of the name. -/
theorem readTagEntry_cases {index : Nat} {tag : Tag}
    (h : readTagEntry registry index s = .ok tag t) :
    ∃ rest, Read.text s.source.body = .ok (registry.tagName tag) rest ∧
      t = { s with source := { s.source with body := rest } } ∧ TagAt registry index tag := by
  obtain ⟨name, hname, htag⟩ := readTagEntry_eq_ok.mp h
  obtain ⟨rest, htext, rfl⟩ := Decode.fromSection_eq_ok.mp hname
  obtain ⟨b, hbuiltin, rfl, rfl⟩ | ⟨hbuiltin, id, hlookup, rfl⟩ := htag
  · exact ⟨rest, htext, rfl, .inl ⟨(List.getElem?_eq_some_iff.mp hbuiltin).1, b, rfl⟩⟩
  · obtain rfl : registry.shapeName id = name := (Registry.lookup_eq_some hlookup).2
    exact ⟨rest, htext, rfl, .inr ⟨List.getElem?_eq_none_iff.mp hbuiltin, id, rfl, hlookup⟩⟩

/-- The names of a tag table are those of its tags. -/
theorem readTagTable_cases {expected : Nat} {tags : List Tag}
    (h : readTagTable registry expected s = .ok tags t) :
    namesIn expected s.source.body = tags.map registry.tagName ∧ t.input = s.input ∧
      ∀ i tag, tags[i]? = some tag → TagAt registry i tag := by
  obtain ⟨_, u, hcount, h₁⟩ := run_bind_eq_ok.mp h
  obtain ⟨body, hread, rfl⟩ := Decode.count_eq_ok.mp hcount
  -- Induction on the entries that are left: the names read are those of the tags found.
  have hloop : ∀ (more index : Nat) (results tags : List Tag) (u : DecodeState),
      Decode.replicate.go (readTagEntry registry) more index results u = .ok tags t →
      Read.replicate.go Read.text more (results.map registry.tagName) u.source.body =
        .ok (tags.map registry.tagName) t.source.body ∧ t.input = u.input := by
    intro more
    induction more with
    | zero =>
        intro index results tags u h
        obtain ⟨rfl, rfl⟩ := run_pure_eq_ok.mp h
        exact ⟨by rw [Read.replicate.go, List.map_reverse]; rfl, rfl⟩
    | succ more ih =>
        intro index results tags u h
        obtain ⟨tag, v, hentry, hrest⟩ := run_bind_eq_ok.mp h
        obtain ⟨rest, htext, rfl, -⟩ := readTagEntry_cases hentry
        obtain ⟨hnames, hinput⟩ := ih _ _ _ _ hrest
        exact ⟨by rw [Read.replicate.go, run_bind_of_ok htext]; exact hnames, hinput⟩
  obtain ⟨hnames, hinput⟩ := hloop expected 0 [] tags _ h₁
  refine ⟨?_, hinput, ?_⟩
  · have hall : (do let _ ← Read.nat32; Read.replicate expected Read.text : Read (List String))
        s.source.body = .ok (tags.map registry.tagName) t.source.body := by
      rw [run_bind_of_ok hread]
      exact hnames
    simp only [namesIn, hall]
  · refine (Decode.replicate_induction
      (motive := fun done _ => ∀ i tag, done[i]? = some tag → TagAt registry i tag) h₁
      (by simp) fun done u tag v _ hdone hentry i found hi => ?_).2
    rcases Nat.lt_trichotomy i done.length with hlt | rfl | hgt
    · rw [List.getElem?_append_left hlt] at hi
      exact hdone i found hi
    · rw [List.getElem?_concat_length, Option.some.injEq] at hi
      obtain ⟨-, -, -, htag⟩ := readTagEntry_cases hentry
      exact hi ▸ htag
    · rw [List.getElem?_eq_none (by simp; omega)] at hi
      simp at hi

/-- Registries that agree on the shape of an entry read it alike. -/
theorem beside_readTagEntry (hr : registry.Valid) (hr' : registry'.Valid) {p : Pairing} {index : Nat}
    {tag : Tag} (hs : p.Beside s s') (h : readTagEntry registry index s = .ok tag t)
    (hagree : ∀ id, tag = .shape id → registry.Agree registry' (registry.shapeName id)) :
    ∃ tag' t', readTagEntry registry' index s' = .ok tag' t' ∧
      tag.Same (registry.Corresponds registry') tag' ∧ p.Beside t t' := by
  obtain ⟨name, hname, htag⟩ := readTagEntry_eq_ok.mp h
  obtain ⟨name', t', hname', rfl, ht⟩ :=
    Pairing.parallel_fromSection Read.local_text.steady s s' t name hs hname
  obtain ⟨b, hbuiltin, hb, rfl⟩ | ⟨hbuiltin, id, hlookup, rfl⟩ := htag
  · exact ⟨_, t', readTagEntry_eq_ok.mpr ⟨name, hname', .inl ⟨b, hbuiltin, hb, rfl⟩⟩, .builtin b, ht⟩
  · obtain rfl : registry.shapeName id = name := (Registry.lookup_eq_some hlookup).2
    obtain ⟨id', hlookup', hid, -⟩ := (hagree id rfl).corresponds hr hr' hlookup
    exact ⟨_, t', readTagEntry_eq_ok.mpr ⟨_, hname', .inr ⟨hbuiltin, id', hlookup', rfl⟩⟩,
      .shape hid, ht⟩

/-- Registries that agree on the shapes of a tag table read it alike. -/
theorem beside_readTagTable (hr : registry.Valid) (hr' : registry'.Valid) {p : Pairing}
    {expected : Nat} {tags : List Tag} (hs : p.Beside s s')
    (h : readTagTable registry expected s = .ok tags t)
    (hagree : ∀ id, .shape id ∈ tags → registry.Agree registry' (registry.shapeName id)) :
    ∃ tags' t', readTagTable registry' expected s' = .ok tags' t' ∧
      List.Forall₂ (Tag.Same (registry.Corresponds registry')) tags tags' ∧ p.Beside t t' := by
  obtain ⟨_, u, hcount, h₁⟩ := run_bind_eq_ok.mp h
  obtain ⟨_, u', hcount', -, hu⟩ := Pairing.parallel_count "tags" expected s s' u _ hs hcount
  obtain ⟨tags', t', hloop, htags, ht⟩ := Pairing.run_replicate
    (fun index _ _ _ _ hv (hentry : readTagEntry registry index _ = _) hshape =>
      beside_readTagEntry hr hr' hv hentry hshape) hu h₁ fun tag htag id hid => hagree id (hid ▸ htag)
  exact ⟨tags', t', run_bind_eq_ok.mpr ⟨_, u', hcount', hloop⟩, htags, ht⟩

/-! ### The object tables

The directory names the shape of a table by a tag index. Tags at one index are related, and so are
the shapes of the tables; the number of entries is the same, and with it the nodes that are set
up. -/

section

variable {rel : ShapeId → ShapeId → Prop} {tags tags' : Array Tag} {tables tables' : List ObjectSlots}

/-- The labels of the tables are those that the names of the tags give. -/
theorem labels_of_objectSlots {offset first : Nat} {entries : List (Option Nat × Nat)}
    (h : objectSlots registry tags offset first entries = .ok tables) :
    entries.map (tableLabel (tags.toList.map registry.tagName)) = tables.map ObjectSlots.label := by
  fun_induction objectSlots registry tags offset first entries generalizing tables with
  | case1 first =>
      obtain rfl := Except.ok.inj h
      rfl
  | case2 first count entries ih =>
      obtain ⟨rest, hrest, h₁⟩ := bind_eq_ok.mp h
      obtain rfl := Except.ok.inj h₁
      rw [List.map_cons, List.map_cons, ih hrest]
      rfl
  | case3 first index count entries id hid ih =>
      obtain ⟨rest, hrest, h₁⟩ := bind_eq_ok.mp h
      obtain rfl := Except.ok.inj h₁
      have hname : (tags.toList.map registry.tagName)[index]? = some (registry.shapeName id) := by
        rw [List.getElem?_map, Array.getElem?_toList, hid]
        rfl
      rw [List.map_cons, List.map_cons, ih hrest, tableLabel, hname]
      rfl
  | case4 => simp at h
  | case5 => simp at h

/-- The same directory sets up the same tables, for shapes at positions that correspond. -/
theorem objectSlots_same (htags : List.Forall₂ (Tag.Same rel) tags.toList tags'.toList)
    (hnames : ∀ id id', rel id id' → registry.shapeName id = registry'.shapeName id')
    {offset first : Nat} (offset' : Nat) {entries : List (Option Nat × Nat)}
    (h : objectSlots registry tags offset first entries = .ok tables) :
    ∃ tables', objectSlots registry' tags' offset' first entries = .ok tables' ∧
      List.Forall₂ (ObjectSlots.Same rel) tables tables' := by
  fun_induction objectSlots registry tags offset first entries generalizing tables with
  | case1 first =>
      obtain rfl := Except.ok.inj h
      exact ⟨[], rfl, .nil⟩
  | case2 first count entries ih =>
      obtain ⟨rest, hrest, h₁⟩ := bind_eq_ok.mp h
      obtain rfl := Except.ok.inj h₁
      obtain ⟨rest', hrest', hsame⟩ := ih hrest
      exact ⟨_, by rw [objectSlots, hrest']; rfl, .cons ⟨rfl, .none, rfl, rfl⟩ hsame⟩
  | case3 first index count entries id hid ih =>
      obtain ⟨rest, hrest, h₁⟩ := bind_eq_ok.mp h
      obtain rfl := Except.ok.inj h₁
      obtain ⟨rest', hrest', hsame⟩ := ih hrest
      have htag := getElem?_rel_of_forall₂ htags index
      rw [Array.getElem?_toList, Array.getElem?_toList] at htag
      obtain ⟨tag', hfound, htag⟩ := exists_of_rel_some htag hid
      cases htag with
      | @shape _ id' hrel =>
          refine ⟨_, by simp only [objectSlots, hfound, hrest']; rfl, .cons ?_ hsame⟩
          exact ⟨congrArg ObjectTables.labelOf (hnames _ _ hrel), .some hrel, rfl, rfl⟩
  | case4 => simp at h
  | case5 => simp at h

/-- The nodes before they are read are the same. -/
theorem blankNodes_eq (htables : List.Forall₂ (ObjectSlots.Same rel) tables tables')
    (hnames : ∀ id id', rel id id' → registry.shapeName id = registry'.shapeName id')
    (arrays : Nat) : blankNodes registry tables arrays = blankNodes registry' tables' arrays := by
  have hblank : ∀ slots slots', ObjectSlots.Same rel slots slots' →
      slots.blank registry = slots'.blank registry' := by
    intro slots slots' hslots
    have hshape := hslots.shape
    simp only [ObjectSlots.blank, hslots.count]
    generalize slots.shape = shape at hshape ⊢
    generalize slots'.shape = shape' at hshape ⊢
    cases hshape with
    | none => rfl
    | some hrel => simp only [Option.elim_some, hnames _ _ hrel]
  rw [← Array.toList_inj, toList_blankNodes, toList_blankNodes]
  congr 1
  induction htables with
  | nil => rfl
  | cons hslots _ ih => rw [List.flatMap_cons, List.flatMap_cons, hblank _ _ hslots, ih]

end

/-- The tables are set up alike as soon as enough bytes are left. -/
theorem run_allocate {rel : ShapeId → ShapeId → Prop} {stream : Nat → List UInt8 → Prop}
    {directory : Directory} {tags tags' : Array Tag} {tables : List ObjectSlots}
    (htags : List.Forall₂ (Tag.Same rel) tags.toList tags'.toList)
    (hnames : ∀ id id', rel id id' → registry.shapeName id = registry'.shapeName id')
    (hs : Level rel stream s s') (hroom : s.input.remaining ≤ s'.input.remaining)
    (h : allocate registry directory tags s = .ok tables t) :
    ∃ tables' t', allocate registry' directory tags' s' = .ok tables' t' ∧
      List.Forall₂ (ObjectSlots.Same rel) tables tables' ∧ Level rel stream t t' ∧
      t'.input = s'.input := by
  obtain ⟨hentries, hslots, rfl⟩ := allocate_eq_ok h
  obtain ⟨tables', hslots', htables⟩ := objectSlots_same htags hnames s'.input.offset hslots
  refine ⟨tables', { s' with nodes := blankNodes registry' tables' directory.arrays }, ?_, htables,
    ⟨hs.streams, hs.present, blankNodes_eq htables hnames _, hs.shapeRefs⟩, rfl⟩
  rw [allocate, run_bind_of_ok run_get, run_bind_of_ok (a := ())
    (Decode.ensure_eq_ok.mpr ⟨Nat.le_trans hentries hroom, rfl⟩), run_bind_of_ok
    (Decode.check_eq_ok.mpr ⟨hslots', rfl⟩), run_bind_of_ok run_modify]
  rfl

/-! ### The phases of setting up

Each part on its own, first those outside of sections, then the two tables in their frames. -/

section

variable (rel : ShapeId → ShapeId → Prop) (stream : Nat → List UInt8 → Prop)

/-- Bytes outside of substreams are read as before. -/
theorem phase_fromInput {α : Type} {read : Read α} (hread : read.Local) {a : α}
    (hrun : Decode.fromInput read s = .ok a t) :
    ∃ bytes, Read.withBytes read s.input = .ok (a, bytes) t.input ∧
      Phase rel stream (· = a) (Decode.fromInput read) s t [.plain bytes] := by
  obtain ⟨rest, hrest, rfl⟩ := Decode.fromInput_eq_ok.mp hrun
  obtain ⟨bytes, hbytes, -, htakes⟩ := hread.run_withBytes hrest
  refine ⟨bytes, hbytes, fun grown segs' s' more offset hs hsegs hinput => ?_⟩
  obtain ⟨_, _, hplain, hnil, rfl⟩ := List.forall₂_cons_left_iff.mp hsegs
  rw [List.forall₂_nil_left_iff] at hnil
  subst hnil
  cases hplain
  rw [unframe_cons, unframe_nil, List.append_nil] at hinput ⊢
  have hrun' : read s'.input = .ok a ⟨more, offset + bytes.length⟩ := hinput ▸ htakes more offset
  exact .inl ⟨rfl, a, _, Decode.fromInput_eq_ok.mpr ⟨_, hrun', rfl⟩, rfl,
    ⟨hs.streams, hs.present, hs.nodes, hs.shapeRefs⟩, rfl⟩

theorem phase_readTagTable (hr : registry.Valid) (hr' : registry'.Valid) {expected : Nat}
    {tags : List Tag} (hrun : Decode.inSection "tags" (readTagTable registry expected) s = .ok tags t)
    (hagree : ∀ id, .shape id ∈ tags → registry.Agree registry' (registry.shapeName id)) :
    ∃ body, readFramed "tags" s.input = .ok (.framed "tags" body) t.input ∧
      Phase rel stream (List.Forall₂ (Tag.Same (registry.Corresponds registry')) tags)
        (Decode.inSection "tags" (readTagTable registry' expected)) s t [.framed "tags" body] :=
  phase_inSection rel stream _ hrun (fun _ _ hrun => (readTagTable_cases hrun).2.1)
    fun _ _ _ _ _ _ hu hrun => beside_readTagTable hr hr' hu hrun hagree

theorem phase_readStringTable {expected : Nat} {strings : List String}
    (hrun : Decode.inSection "strings" (readStringTable expected) s = .ok strings t) :
    ∃ body, readFramed "strings" s.input = .ok (.framed "strings" body) t.input ∧
      Phase rel stream (strings = ·) (Decode.inSection "strings" (readStringTable expected)) s t
        [.framed "strings" body] := by
  have hparallel : ∀ p : Pairing, p.Parallel Eq (readStringTable expected)
      (readStringTable expected) := fun p =>
    (Pairing.parallel_count "strings" expected).bind fun _ _ _ =>
      Pairing.parallel_fromSection (Read.local_replicate Read.local_text expected).steady
  exact DecodeInput.phase_of_parallel rel stream hrun (fun p _ => hparallel p) fun p _ => hparallel p

end

/-! ### Setting up

All parts one after another. What the tables are set up from is in the opening, and the opening is
read without a registry, so it is the same on both sides. -/

/-- What the segments up to the tag table tell is what the tables are set up from. -/
structure Opening.Tells (opening : Opening) (input : DecodeInput) : Prop where
  wire : opening.wire = input.wire
  labels : opening.directory.objects.entries.map (tableLabel opening.names) =
    input.tables.map ObjectSlots.label
  shapes : ∀ id, .shape id ∈ input.tags →
    input.registry.shapeName id ∈ opening.names.drop Builtin.count
  registered : ∀ name ∈ opening.names.drop Builtin.count, ∃ id, input.registry.lookup name = some id

/-- The opening of a module is what its first three parts are. -/
theorem opening_of_sections {wire : WireFormat} {directory : Directory} {tags : List Tag}
    {s₁ s₂ s₃ s₄ : DecodeState} {tables : List ObjectSlots} {header counts table : List UInt8}
    (hheader : Read.withBytes readHeader s.input = .ok (wire, header) s₁.input)
    (hcounts : Read.withBytes (readDirectory wire) s₁.input = .ok (directory, counts) s₂.input)
    (htable : readFramed "tags" s₂.input = .ok (.framed "tags" table) s₃.input)
    (htags : Decode.inSection "tags" (readTagTable registry directory.tags) s₂ = .ok tags s₃)
    (hallocate : allocate registry directory tags.toArray s₄ = .ok tables t)
    (strings : Array String) (size : Nat) :
    ∃ opening, readOpening s.input = .ok opening s₃.input ∧
      opening.segments = [.plain header, .plain counts, .framed "tags" table] ∧
      opening.Tells
        { registry := registry, wire := wire, tags := tags.toArray, strings := strings,
          tables := tables, firstArray := directory.objectEntries, arrayCount := directory.arrays,
          size := size } := by
  obtain ⟨body, input, hread, hrun, -⟩ := Decode.inSection_eq_ok.mp htags
  obtain ⟨hframe, -, -⟩ := run_readFramed hread "tags"
  obtain ⟨hbody, rfl⟩ : body.unread = table ∧ input = s₃.input := by
    simpa using hframe.symm.trans htable
  obtain ⟨hnames, -, htag⟩ := readTagTable_cases hrun
  have hget : ∀ i, ((tags.map registry.tagName).drop Builtin.count)[i]? =
      tags[Builtin.count + i]?.map registry.tagName := fun i => by
    rw [List.getElem?_drop, List.getElem?_map]
  refine ⟨⟨wire, directory, tags.map registry.tagName, _⟩, ?_, rfl, rfl, ?_, fun id hid => ?_,
    fun name hname => ?_⟩
  · rw [readOpening, run_bind_of_ok hheader]
    simp only
    rw [run_bind_of_ok hcounts]
    simp only
    rw [run_bind_of_ok hread, ← hnames, ← hbody]
    rfl
  · exact labels_of_objectSlots (allocate_eq_ok hallocate).2.1
  · obtain ⟨i, hi⟩ := List.mem_iff_getElem?.mp (Array.mem_toList_iff.mpr hid)
    rcases htag i _ hi with ⟨-, b, hb⟩ | ⟨hle, -⟩
    · simp at hb
    · refine List.mem_of_getElem? (i := i - Builtin.count) ?_
      rw [hget, Nat.add_sub_cancel' hle, hi]
      rfl
  · obtain ⟨i, hi⟩ := List.mem_iff_getElem?.mp hname
    rw [hget] at hi
    obtain ⟨tag, hfound, rfl⟩ := Option.map_eq_some_iff.mp hi
    rcases htag _ tag hfound with ⟨hlt, -⟩ | ⟨-, id, rfl, hlookup⟩
    · omega
    · exact ⟨id, hlookup⟩

/-- Registries that agree on the shapes of the tag table set up the same tables, if the
second one has as many bytes behind the strings. -/
theorem run_readInput (hr : registry.Valid) (hr' : registry'.Valid) {input : DecodeInput}
    (stream : Nat → List UInt8 → Prop) (hrun : readInput registry s = .ok input t)
    (hagree : ∀ id, .shape id ∈ input.tags → registry.Agree registry' (registry.shapeName id)) :
    ∃ opening r body, readOpening s.input = .ok opening r ∧
      readFramed "strings" r = .ok (.framed "strings" body) t.input ∧ opening.Tells input ∧
      ∀ (grown : String → Nat → Prop) (segs' : List Segment) (s' : DecodeState) (rest : List UInt8)
        (offset : Nat), Level (registry.Corresponds registry') stream s s' →
        List.Forall₂ (Grows grown) (opening.segments ++ [.framed "strings" body]) segs' →
        s'.input = ⟨unframe segs' ++ rest, offset⟩ → s.input.remaining ≤ s'.input.remaining →
        t.input.remaining ≤ rest.length →
        Judged grown (opening.segments ++ [.framed "strings" body]) segs' (readInput registry' s')
          fun input' t' => DecodeInput.Alike (registry.Corresponds registry') input input' ∧
            Level (registry.Corresponds registry') stream t t' ∧
            t'.input = ⟨rest, offset + (unframe segs').length⟩ := by
  obtain ⟨wire, s₁, directory, s₂, tags, s₃, strings, s₄, tables, hwire, hdirectory, htags, hstrings,
    hallocate, rfl⟩ := readInput_eq_ok hrun
  have hagree' : ∀ id, .shape id ∈ tags → registry.Agree registry' (registry.shapeName id) :=
    fun id hid => hagree id (by simpa using hid)
  let rel := registry.Corresponds registry'
  obtain ⟨header, hheader, hphase₁⟩ := phase_fromInput rel stream local_readHeader hwire
  obtain ⟨counts, hcounts, hphase₂⟩ := phase_fromInput rel stream (local_readDirectory wire) hdirectory
  obtain ⟨table, htable, hphase₃⟩ := phase_readTagTable rel stream hr hr' htags hagree'
  obtain ⟨body, hbody, hphase₄⟩ := phase_readStringTable rel stream hstrings
  obtain ⟨opening, hopening, hsegments, htells⟩ :=
    opening_of_sections hheader hcounts htable htags hallocate strings.toArray s.input.remaining
  have hinput : t.input = s₄.input := by rw [(allocate_eq_ok hallocate).2.2]
  refine ⟨opening, s₃.input, body, hopening, hinput ▸ hbody, htells,
    fun grown segs' s' rest offset hs hsegs hinput' hsize hroom => ?_⟩
  replace hsegs : List.Forall₂ (Grows grown) ([.plain header] ++ ([.plain counts] ++
      ([.framed "tags" table] ++ [.framed "strings" body]))) segs' := by rwa [hsegments] at hsegs
  obtain ⟨segs₁, _, rfl, hsegs₁, hsegs⟩ := exists_of_forall₂_append hsegs
  obtain ⟨segs₂, _, rfl, hsegs₂, hsegs⟩ := exists_of_forall₂_append hsegs
  obtain ⟨segs₃, segs₄, rfl, hsegs₃, hsegs₄⟩ := exists_of_forall₂_append hsegs
  simp only [unframe_append, List.append_assoc, List.length_append] at hinput' ⊢
  rw [hsegments]
  refine Judged.bind_of_ok run_get ?_
  -- Whatever has grown is refused at the end of its own section.
  refine (hphase₁ grown segs₁ s' _ offset hs hsegs₁ hinput').bind fun wire' t₁ hwire' => ?_
  obtain ⟨rfl, ht₁, hinput₁⟩ := hwire'
  refine (hphase₂ grown segs₂ t₁ _ _ ht₁ hsegs₂ hinput₁).bind fun directory' t₂ hdirectory' => ?_
  obtain ⟨rfl, ht₂, hinput₂⟩ := hdirectory'
  refine (hphase₃ grown segs₃ t₂ _ _ ht₂ hsegs₃ hinput₂).bind fun tags' t₃ htags' => ?_
  obtain ⟨htags', ht₃, hinput₃⟩ := htags'
  replace htags' : List.Forall₂ (Tag.Same rel) tags.toArray.toList tags'.toArray.toList := htags'
  refine (hphase₄ grown segs₄ t₃ _ _ ht₃ hsegs₄ hinput₃).bind_ok fun strings' t₄ hstrings' => ?_
  obtain ⟨rfl, ht₄, hinput₄⟩ := hstrings'
  have hroom₄ : s₄.input.remaining ≤ t₄.input.remaining := by
    rw [← hinput, hinput₄]
    exact hroom
  have hnames : ∀ id id', rel id id' → registry.shapeName id = registry'.shapeName id' :=
    fun _ _ hid => hid.2.2
  obtain ⟨tables', t₅, hallocate', htables, ht₅, hinput₅⟩ :=
    run_allocate htags' hnames ht₄ hroom₄ hallocate
  refine ⟨_, t₅, run_bind_of_ok hallocate', ?_, ht₅, ?_⟩
  · refine ⟨rfl, htags', rfl, htables, rfl, rfl, hsize, Registry.biUnique_corresponds hr hr', hnames,
      fun id id' hid hmem => ?_⟩
    obtain ⟨found, hfound, hcorresponds, hfields⟩ :=
      (hagree id hmem).corresponds hr hr' (hr.lookup_shapeName hid.1)
    obtain rfl := (Registry.biUnique_corresponds hr hr').2 hcorresponds hid
    exact hfields
  · rw [hinput₅, hinput₄]
    simp only [Nat.add_assoc]

end Module

end SyntaxPack
