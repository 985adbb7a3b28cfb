import SyntaxPack.Proofs.Decode.Sites
import SyntaxPack.Proofs.Summary.Directory
/-!
# SyntaxPack.Proofs.Decode.Reported

Which place of a module is reported for a tag.

In front of the sections no token of a tag is read, and none is reported (`meets_readInput`,
`meets_readStreams`). Behind it, a tag that is reported stands where reading tokens is at. Without
value streams that is the offset of the report. With them the report names the place in the section,
where no token stands, while the token stands in the stream of `any` in front of all sections
(`reported_of_decode`).
-/

namespace SyntaxPack

namespace Module

variable {bytes : List UInt8} {input : DecodeInput} {registry : Registry} {s t u : DecodeState}
  {name : String} {offset : Nat}

/-! ### In front of the sections

Errors that are reported here are those of names, counts and lengths. None of them is that of a
token, so `Opens` allows no site at all. -/

/-- What is in front of the value streams is read. -/
structure Preamble (bytes : List UInt8) (s : DecodeState) : Prop where
  input : s.input.Within bytes ⟨0, bytes.length⟩
  streams : s.source.streams = none

/-- A step in front of the sections, where no token of a tag is reported. -/
abbrev Opens (bytes : List UInt8) {α : Type} (x : Decode α) : Prop :=
  Meets (Preamble bytes) x (fun _ => Preamble bytes) (Error.Fits fun _ _ => False)

theorem preamble_start (bytes : List UInt8) : Preamble bytes (Decode.start bytes) :=
  ⟨Reader.within_ofBytes bytes, rfl⟩

section Opens

variable {α : Type} {read : Read α} {n : Nat}

theorem opens_fromInput (hread : read.Consumes n) (hplain : read.Plain) :
    Opens bytes (Decode.fromInput read) :=
  Decode.meets_fromInput hplain fun _ _ _ hs hrun =>
    ⟨within_of_consumes hs.input hread hrun, hs.streams⟩

theorem opens_fromSection (hplain : read.Plain) : Opens bytes (Decode.fromSection read) :=
  Decode.meets_fromSection hplain fun _ _ _ hs _ => ⟨hs.input, hs.streams⟩

theorem opens_inSection {label : String} {content : Decode α} (h : Opens bytes content) :
    Opens bytes (Decode.inSection label content) :=
  Decode.meets_inSection (fun _ _ _ hs hread => ⟨(hs.input.substream hread).1, hs.streams⟩) h
    fun _ hs => hs

theorem opens_count {label : String} {expected : Nat} :
    Opens bytes (Decode.count label expected) :=
  (opens_fromSection Read.plain_nat32).bind fun _ => Decode.meets_ensure trivial

end Opens

theorem opens_readTagEntry (index : Nat) : Opens bytes (readTagEntry registry index) := by
  refine (opens_fromSection Read.plain_offset).bind fun offset =>
    (opens_fromSection Read.plain_text).bind fun name => ?_
  split
  · exact Meets.bind (Decode.meets_ensure fun h => h.elim) fun _ => meets_pure fun _ hs => hs
  · split
    · exact meets_pure fun _ hs => hs
    · exact meets_throw trivial

theorem opens_readTagTable (expected : Nat) : Opens bytes (readTagTable registry expected) :=
  opens_count.bind fun _ => Decode.meets_replicate opens_readTagEntry

theorem opens_readStringTable (expected : Nat) : Opens bytes (readStringTable expected) :=
  opens_count.bind fun _ => opens_fromSection (Read.plain_replicate Read.plain_text expected)

theorem fits_of_objectSlots {site : String → Nat → Prop} {tags : Array Tag} {first : Nat}
    {entries : List (Option Nat × Nat)} {e : DecodeError}
    (h : objectSlots registry tags offset first entries = .error e) :
    (Error.decode e).Fits site := by
  fun_induction objectSlots registry tags offset first entries with
  | case1 => cases h
  | case2 first count entries ih | case3 first index count entries id hid ih =>
      rcases bind_eq_error.mp h with h | ⟨slots, -, h⟩
      · exact ih h
      · cases h
  | case4 =>
      cases h
      exact fun h => h.elim
  | case5 =>
      cases h
      trivial

theorem opens_allocate (directory : Directory) (tags : Array Tag) :
    Opens bytes (allocate registry directory tags) := by
  refine meets_get.bind fun s => Meets.bind (Decode.meets_ensure trivial) fun _ =>
    Meets.bind (Decode.meets_check fun _ => fits_of_objectSlots) fun tables =>
    Meets.bind (meets_modify fun t ht => ?_) fun _ => meets_pure fun _ hs => hs
  exact ⟨ht.1.input, ht.1.streams⟩

theorem opens_readInput : Opens bytes (readInput registry) := by
  have hstart : Meets (Preamble bytes) (get : Decode DecodeState) (fun _ => Preamble bytes)
      (Error.Fits fun _ _ => False) :=
    meets_get.mono (fun _ hs => hs) fun _ _ hs => hs.1
  exact hstart.bind fun s => (opens_fromInput consumes_readHeader plain_readHeader).bind fun wire =>
    (opens_fromInput (consumes_readDirectory wire) (plain_readDirectory wire)).bind fun directory =>
    (opens_inSection (opens_readTagTable directory.tags)).bind fun tags =>
    (opens_inSection (opens_readStringTable directory.strings)).bind fun strings =>
    (opens_allocate directory tags.toArray).bind fun tables => meets_pure fun _ hs => hs

/-! ### Value streams

Streams are stored as windows of the module. All of them end before the first section starts, which
is what tells the place of a report from that of its token. -/

/-- The streams that are stored are windows of what has been read. -/
structure Stored (bytes : List UInt8) (enabled : Bool) (s : DecodeState) : Prop where
  input : s.input.Within bytes ⟨0, bytes.length⟩
  isSome_eq : s.source.streams.isSome = enabled
  streams : ∀ map key r, s.source.streams = some map → map.find? key = some r →
    r.Within bytes ⟨r.offset, r.offset + r.remaining⟩ ∧ r.offset + r.remaining ≤ s.input.offset

theorem Stored.skip {enabled : Bool} {k : Nat} (h : Stored bytes enabled s)
    (hk : k ≤ s.input.remaining) : Stored bytes enabled { s with input := s.input.skip k } := by
  refine ⟨h.input.skip hk, h.isSome_eq, fun map key r hmap hfind => ?_⟩
  obtain ⟨hwithin, hle⟩ := h.streams map key r hmap hfind
  exact ⟨hwithin, Nat.le_trans hle (Nat.le_add_right _ _)⟩

theorem Stored.insert {key : Nat} {stream : Reader} (h : Stored bytes true s)
    (hwithin : stream.Within bytes ⟨stream.offset, stream.offset + stream.remaining⟩)
    (hle : stream.offset + stream.remaining ≤ s.input.offset) :
    Stored bytes true { s with source := (s.source.insert key stream).2 } := by
  refine ⟨h.input, rfl, fun map other r hmap hfind => ?_⟩
  obtain rfl := Option.some.inj hmap
  rw [TagMap.find?_insert] at hfind
  split at hfind
  · obtain rfl := Option.some.inj hfind
    exact ⟨hwithin, hle⟩
  · cases hstreams : s.source.streams with
    | none => simp [hstreams, TagMap.find?] at hfind
    | some before =>
        rw [hstreams] at hfind
        exact h.streams before other r hstreams hfind

/-- Every stream is stored as a window behind those before it. -/
theorem meets_readStream (index : Nat) :
    Meets (Stored bytes true) (input.readStream index) (fun _ => Stored bytes true)
      (Error.Fits fun _ _ => False) := by
  have hkey : Meets (Stored bytes true) (Decode.fromInput (DecodeInput.located Read.nat32))
      (fun _ => Stored bytes true) (Error.Fits fun _ _ => False) := by
    refine Decode.meets_fromInput (DecodeInput.plain_located Read.plain_nat32)
      fun s x rest hs hrun => ?_
    obtain ⟨k, -, hk, rfl⟩ := DecodeInput.consumes_located Read.consumes_nat32 _ _ _ hrun
    exact hs.skip hk
  have hstream : Meets (Stored bytes true) (Decode.fromInput Read.substream)
      (fun stream s => Stored bytes true s ∧
        stream.Within bytes ⟨stream.offset, stream.offset + stream.remaining⟩ ∧
        stream.offset + stream.remaining ≤ s.input.offset) (Error.Fits fun _ _ => False) := by
    refine Decode.meets_fromInput Read.plain_substream fun s stream rest hs hrun => ?_
    obtain ⟨-, hwithin, -, -, hle⟩ := hs.input.substream hrun
    obtain ⟨k, hk, rfl⟩ := Read.advances_substream.ok _ _ _ hrun
    exact ⟨hs.skip hk, hwithin, Nat.le_trans (Nat.le_add_right _ 4) hle⟩
  refine hkey.bind fun x => Meets.bind (Decode.meets_ensure trivial) fun _ =>
    hstream.bind fun stream => meets_get.bind fun s =>
    Meets.bind (meets_modify fun t ht => ?_) fun _ => Decode.meets_check fun e he => ?_
  · obtain ⟨⟨hstored, hwithin, hle⟩, rfl⟩ := ht
    exact hstored.insert hwithin hle
  · split at he
    · cases he
      trivial
    · cases he

theorem meets_readStreams : Meets (Preamble bytes) input.readStreams
    (fun _ => Stored bytes input.wire.valueStreams) (Error.Fits fun _ _ => False) := by
  unfold DecodeInput.readStreams
  split
  · rename_i henabled
    rw [henabled]
    refine (opens_fromInput Read.consumes_nat32 Read.plain_nat32).bind fun count =>
      Meets.bind (meets_modify fun s hs => ?_) fun _ =>
      (Decode.meets_replicate meets_readStream).bind fun _ => meets_pure fun _ hs => hs
    refine ⟨hs.input, rfl, fun map key r hmap hfind => ?_⟩
    obtain rfl := Option.some.inj hmap
    simp [TagMap.find?] at hfind
  · rename_i hdisabled
    refine meets_pure fun s hs => ⟨hs.input, ?_, fun map key r hmap => ?_⟩
    · simp [hs.streams, hdisabled]
    · simp [hs.streams] at hmap

/-- The sections start where the streams are stored. -/
theorem Stored.between {enabled : Bool} (h : Stored bytes enabled u) : BetweenSections bytes u u :=
  ⟨h.input, Nat.le_refl _, Iff.rfl, fun map _ r hmap hfind =>
    ⟨map, r, hmap, hfind, (h.streams map _ r hmap hfind).1⟩⟩

/-! ### The module

A report of a token comes from a section. Its offset is that of the section, and the token was read
there or from a stream that was stored. -/

theorem fits_of_checkTree {site : String → Nat → Prop} {tree : Tree} {refs : List ShapeRef}
    {e : Error} (h : checkTree registry tree refs = .error e) : e.Fits site := by
  rcases bind_eq_error.mp h with h | ⟨_, -, h⟩
  · obtain ⟨ref, -, hcheck⟩ := forM_eq_error h
    simp only [checkShapeRef] at hcheck
    split at hcheck
    · cases hcheck
    · cases hcheck
      trivial
  · split at h
    · cases h
      trivial
    · cases h

/-- A token that is reported is read in a section, once the streams are stored. -/
theorem exists_tagSite_of_readModule {context : TagContext} (hcontext : context.OfToken)
    (h : readModule registry (Decode.start bytes) =
      .error (.decode (.unexpectedTag name offset context)) t) :
    ∃ input s u, readInput registry (Decode.start bytes) = .ok input s ∧
      input.readStreams s = .ok () u ∧ Stored bytes input.wire.valueStreams u ∧
      TagSite input bytes u name offset := by
  have hopened := preamble_start bytes
  obtain hinput | ⟨input, s, hinput, h⟩ := run_bind_eq_error.mp h
  · exact (opens_readInput.error _ _ _ hopened hinput hcontext).elim
  · have hs := opens_readInput.ok _ _ _ hopened hinput
    obtain hsections | ⟨root, v, -, hend⟩ := run_bind_eq_error.mp h
    · obtain hstreams | ⟨_, u, hstreams, hsections⟩ := run_bind_eq_error.mp hsections
      · exact (meets_readStreams.error _ _ _ hs hstreams hcontext).elim
      · have hu := meets_readStreams.ok _ _ _ hs hstreams
        exact ⟨input, s, u, hinput, hstreams, hu,
          DecodeInput.meets_sections.error _ _ _ hu.between hsections hcontext⟩
    · have hlast : Meets (fun _ => True) (do
          Decode.check ((← get).input.expectEnd "module")
          pure root) (fun _ _ => True) (Error.Fits fun _ _ => False) :=
        meets_get.bind fun _ => Meets.bind (Decode.meets_check fun _ => Decode.fits_of_expectEnd)
          fun _ => meets_pure fun _ _ => trivial
      exact (hlast.error _ _ _ trivial hend hcontext).elim

/-- The name of the tag whose token stands at an offset of a module, by the index encoding and the
tag table of the module. -/
def tagNameAt (registry : Registry) (bytes : List UInt8) (offset : Nat) : Option String :=
  (frontOf bytes registry).bind (·.tagNameAt bytes offset)

/-- Where the token stands of a tag that is reported at an offset. The streams are stored in `u`. -/
structure Reported (bytes : List UInt8) (registry : Registry) (name : String) (offset : Nat)
    (input : DecodeInput) (s u : DecodeState) : Prop where
  opened : readInput registry (Decode.start bytes) = .ok input s
  stored : input.readStreams s = .ok () u
  /-- The offset is in one of the sections, or at its end. -/
  inSection : ∃ w : Window,
    w.Framed bytes ∧ u.input.offset ≤ w.start ∧ w.start ≤ offset ∧ offset ≤ w.stop
  /-- Without value streams, the token stands at the offset. -/
  plain : input.wire.valueStreams = false → tagNameAt registry bytes offset = some name
  /-- With value streams it stands in that of `any`, which ends before the first section starts. -/
  streamed : input.wire.valueStreams = true → ∃ stream token,
    u.source.route Builtin.any.seedIndex = .ok stream ∧
      tagNameAt registry bytes token = some name ∧ stream.offset ≤ token ∧
      token < stream.offset + stream.remaining ∧
      stream.offset + stream.remaining ≤ u.input.offset

theorem TagSite.reported (h : TagSite input bytes u name offset)
    (hinput : readInput registry (Decode.start bytes) = .ok input s)
    (hstreams : input.readStreams s = .ok () u) (hu : Stored bytes input.wire.valueStreams u) :
    Reported bytes registry name offset input s u := by
  have hat : ∀ offset, tagNameAt registry bytes offset = input.tagNameAt bytes offset := by
    intro offset
    rw [tagNameAt, frontOf_eq_some.mpr ⟨s, hinput⟩, Option.bind_some]
  refine ⟨hinput, hstreams, h.inWindow, fun hdisabled => ?_, fun henabled => ?_⟩
  · have hnone : u.source.streams = none := by simpa [hdisabled] using hu.isSome_eq
    exact (hat offset).trans (h.inSection hnone)
  · obtain ⟨map, hmap⟩ : ∃ map, u.source.streams = some map :=
      Option.isSome_iff_exists.mp (hu.isSome_eq.trans henabled)
    obtain ⟨stream, token, hstream, htoken, hstart, hstop⟩ := h.inStream map hmap
    refine ⟨stream, token, ?_, (hat token).trans htoken, hstart, hstop,
      (hu.streams map _ stream hmap hstream).2⟩
    simp only [StreamReader.route, hmap, hstream]

/-- Where a tag is reported that is not accepted, its token stands there or, with value streams, in
the stream of `any` in front of it. -/
theorem reported_of_decode (bytes : List UInt8) (registry : Registry) (name : String) (offset : Nat)
    (context : TagContext) (hcontext : context.OfToken)
    (h : decode bytes registry = .error (.decode (.unexpectedTag name offset context))) :
    ∃ input s u, Reported bytes registry name offset input s u := by
  simp only [decode, EStateM.run] at h
  split at h
  · rename_i hrun
    obtain rfl := Except.error.inj h
    obtain ⟨input, s, u, hinput, hstreams, hu, hsite⟩ := exists_tagSite_of_readModule hcontext hrun
    exact ⟨input, s, u, hsite.reported hinput hstreams hu⟩
  · rcases bind_eq_error.mp h with h | ⟨_, -, h⟩
    · have hfits : (Error.decode (.unexpectedTag name offset context)).Fits fun _ _ => False :=
        fits_of_checkTree h
      exact (hfits hcontext).elim
    · cases h

/-- A module without strings and nodes, up to the sections or to the streams in front of them. -/
def bareFront (flags : UInt8) : List UInt8 :=
  [137, 87, 101, 98, 65, 83, 77, 13, 10, 26, 10, 14, 104, 121, 97, 115, 116, 45, 109, 111, 100, 117,
    108, 101, 47, 49, 0, flags, 11, 0, 0, 0, 0, 0, 0, 0, 0, 0, 0, 0, 0, 0, 0, 0, 74, 0, 0, 0, 11, 0,
    0, 0, 3, 97, 110, 121, 5, 97, 114, 114, 97, 121, 6, 111, 98, 106, 101, 99, 116, 7, 98, 111, 111,
    108, 101, 97, 110, 6, 115, 116, 114, 105, 110, 103, 7, 105, 110, 116, 101, 103, 101, 114, 6, 110,
    117, 109, 98, 101, 114, 4, 110, 117, 108, 108, 4, 116, 114, 117, 101, 5, 102, 97, 108, 115, 101,
    6, 100, 111, 117, 98, 108, 101, 74, 0, 0, 0, 4, 0, 0, 0, 0, 0, 0, 0, 4, 0, 0, 0]

/-- The object table and the array table, both empty. -/
def bareTables : List UInt8 :=
  [4, 0, 0, 0, 0, 0, 0, 0, 4, 0, 0, 0, 4, 0, 0, 0, 0, 0, 0, 0, 4, 0, 0, 0]

/-- A module whose root has the tag `boolean`, which is none of a value. -/
def kindAtRoot : List UInt8 := bareFront 0 ++ (bareTables ++ [1, 0, 0, 0, 3, 1, 0, 0, 0])

/-- The same module with value streams. The tag is the only token of the stream of `any`. -/
def kindInStream : List UInt8 :=
  bareFront 2 ++ ([1, 0, 0, 0, 0, 0, 0, 0, 1, 0, 0, 0, 3, 1, 0, 0, 0] ++
    (bareTables ++ [0, 0, 0, 0, 0, 0, 0, 0]))

/-- The error that decoding ends with. -/
def decodeError? (bytes : List UInt8) (registry : Registry) : Option Error :=
  match decode bytes registry with
  | .ok _ => none
  | .error error => some error

theorem decodeError?_eq_some {error : Error} :
    decodeError? bytes registry = some error ↔ decode bytes registry = .error error := by
  unfold decodeError?
  split <;> simp [*]

theorem decode_kindAtRoot : decode kindAtRoot .pairs =
    .error (.decode (.unexpectedTag "boolean" 166 .declaredType)) :=
  decodeError?_eq_some.mp (by decide +kernel)

theorem decode_kindInStream : decode kindInStream .pairs =
    .error (.decode (.unexpectedTag "boolean" 183 .declaredType)) :=
  decodeError?_eq_some.mp (by decide +kernel)

/-- Both modules are reported by what stands in the root section. -/
theorem reported_kinds : TagContext.OfToken .declaredType ∧
    (decode kindAtRoot .pairs = .error (.decode (.unexpectedTag "boolean" 166 .declaredType)) ∧
      ∃ input s u, Reported kindAtRoot .pairs "boolean" 166 input s u) ∧
    decode kindInStream .pairs = .error (.decode (.unexpectedTag "boolean" 183 .declaredType)) ∧
      ∃ input s u, Reported kindInStream .pairs "boolean" 183 input s u :=
  ⟨trivial, ⟨decode_kindAtRoot, reported_of_decode _ _ _ _ .declaredType trivial decode_kindAtRoot⟩,
    decode_kindInStream, reported_of_decode _ _ _ _ .declaredType trivial decode_kindInStream⟩

/-- The offset that is reported is not always that of the token: with value streams it can be that
of the footer of the root section, which reads as the token of `any`. -/
theorem reported_elsewhere : ¬ ∀ (bytes : List UInt8) (registry : Registry) (name : String)
    (offset : Nat) (context : TagContext), context.OfToken →
    decode bytes registry = .error (.decode (.unexpectedTag name offset context)) →
    tagNameAt registry bytes offset = some name := by
  intro h
  have hname := h _ _ _ _ .declaredType trivial decode_kindInStream
  have hfooter : tagNameAt .pairs kindInStream 183 = some "any" := by decide +kernel
  rw [hfooter] at hname
  simp at hname

end Module

end SyntaxPack
