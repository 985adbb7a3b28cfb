import SyntaxPack.Proofs.Decode.Slots
import SyntaxPack.Proofs.Decode.Streams
import SyntaxPack.Proofs.Meets
import SyntaxPack.Proofs.Script.Windows
/-!
# SyntaxPack.Proofs.Decode.Sites

Where the tags stand that decoding reports.

An error that reports an unexpected tag gives its name and an offset. The offset is taken from the
section before the tag is read, so it is where the tag stands only as long as tags are in the
section; with value streams the token is somewhere else, in the stream of `any`. This module says
what is true of both:

* While a section is decoded, the section and the value streams are windows of the module, the
  streams all in front of the section (`InSection`).
* A tag that is reported has been read as a token from where the tokens of `any` are, while the
  section went on at the offset that is reported (`TagSite`).
* Every step of decoding keeps to the one and reports nothing but the other (`Pinpoints`), from
  slots to whole sections (`meets_sections`).

The only step that has to show a site is the reading of a tag (`tagSite_of_readTag`); what may be
reported afterwards gets the site as a hypothesis (`pinpoints_tagged`).
-/

namespace SyntaxPack

/-! ### Errors that report a token

What an error may say is a predicate of the error, so it can stand as the last argument of `Meets`.
Only an error that reports a tag has anything to fulfil; all others fit as they are, which is what
closes nearly every check of the decoder. -/

/-- Whether the tag in this place has been read as a token. -/
def TagContext.OfToken : TagContext → Prop
  | tableEntry | declaredType | slotMarker => True
  | builtinSeed | tableDirectory | declaredKind => False

/-- If an error reports the token of a tag, the name of the tag and the offset are fit for it. All
other errors fit, whatever the sites are. -/
def Error.Fits (site : String → Nat → Prop) : Error → Prop
  | .decode (.unexpectedTag name offset context) => context.OfToken → site name offset
  | _ => True

/-- Errors that readers raise never report a tag. -/
theorem DecodeError.IsPlain.fits {site : String → Nat → Prop} {e : DecodeError} (h : e.IsPlain) :
    (Error.decode e).Fits site := by
  cases e with
  | unexpectedTag => exact h.elim
  | _ => trivial

namespace Module

namespace Decode

variable {α β : Type} {site : String → Nat → Prop} {pre inv : DecodeState → Prop}
  {post : α → DecodeState → Prop}

theorem meets_fail {e : DecodeError} (he : (Error.decode e).Fits site) :
    Meets pre (fail e : Decode α) post (Error.Fits site) :=
  meets_throw he

theorem meets_ensure {p : Prop} [Decidable p] {error : Error} (he : error.Fits site) :
    Meets pre (ensure p error) (fun _ => pre) (Error.Fits site) :=
  meets_ite (meets_pure fun _ hs => hs) (meets_throw he)

theorem meets_require {found : Option α} {e : DecodeError} (he : e.IsPlain) :
    Meets pre (require found e) (fun _ => pre) (Error.Fits site) := by
  unfold require
  split
  · exact meets_pure fun _ hs => hs
  · exact meets_fail he.fits

theorem meets_check {result : Except DecodeError α}
    (he : ∀ e, result = .error e → (Error.decode e).Fits site) :
    Meets pre (check result) (fun _ => pre) (Error.Fits site) := by
  cases result with
  | ok a => exact meets_pure fun _ hs => hs
  | error e => exact meets_fail (he e rfl)

theorem fits_of_expectEnd {r : Reader} {label : String} {e : DecodeError}
    (h : r.expectEnd label = .error e) : (Error.decode e).Fits site := by
  unfold Reader.expectEnd at h
  split at h
  · cases h
  · cases h
    trivial

theorem meets_fromInput {read : Read α} (hplain : read.Plain) (h : ∀ s a rest, pre s →
      read s.input = .ok a rest → post a { s with input := rest }) :
    Meets pre (fromInput read) post (Error.Fits site) where
  ok s a t hs hrun := by
    obtain ⟨rest, hread, rfl⟩ := fromInput_eq_ok.mp hrun
    exact h s a rest hs hread
  error s e t hs hrun := by
    simp only [fromInput, EStateM.run] at hrun
    split at hrun
    · cases hrun
    · rename_i hread
      cases hrun
      exact (hplain.error _ _ _ trivial hread).fits

theorem meets_fromSection {read : Read α} (hplain : read.Plain) (h : ∀ s a rest, pre s →
      read s.source.body = .ok a rest → post a { s with source := { s.source with body := rest } }) :
    Meets pre (fromSection read) post (Error.Fits site) where
  ok s a t hs hrun := by
    obtain ⟨rest, hread, rfl⟩ := fromSection_eq_ok.mp hrun
    exact h s a rest hs hread
  error s e t hs hrun := by
    simp only [fromSection, EStateM.run] at hrun
    split at hrun
    · cases hrun
    · rename_i hread
      cases hrun
      exact (hplain.error _ _ _ trivial hread).fits

theorem meets_fromStream {stream : Nat} {read : Read α} (hplain : read.Plain)
    (h : ∀ s reader a rest, pre s → s.source.route stream = .ok reader → read reader = .ok a rest →
      post a { s with source := s.source.advance stream rest }) :
    Meets pre (fromStream stream read) post (Error.Fits site) where
  ok s a t hs hrun := by
    obtain ⟨reader, rest, hroute, hread, rfl⟩ := fromStream_eq_ok.mp hrun
    exact h s reader a rest hs hroute hread
  error s e t hs hrun := by
    simp only [fromStream, EStateM.run] at hrun
    split at hrun
    · rename_i hroute
      cases hrun
      unfold StreamReader.route at hroute
      split at hroute
      · cases hroute
      · split at hroute
        · cases hroute
        · cases hroute
          trivial
    · split at hrun
      · cases hrun
      · rename_i hread
        cases hrun
        exact (hplain.error _ _ _ trivial hread).fits

/-- What every step of a repetition keeps is kept by the repetition, however many steps it has. -/
theorem meets_replicate {count : Nat} {step : Nat → Decode α}
    (h : ∀ index, Meets inv (step index) (fun _ => inv) (Error.Fits site)) :
    Meets inv (replicate count step) (fun _ => inv) (Error.Fits site) := by
  -- The loop counts up and collects in reverse, so the statement is taken for every index and
  -- every list of results so far.
  suffices ∀ index results, Meets inv (replicate.go step count index results) (fun _ => inv)
      (Error.Fits site) from this 0 []
  induction count with
  | zero => exact fun _ _ => meets_pure fun _ hs => hs
  | succ count ih => exact fun index results => (h index).bind fun a => ih (index + 1) (a :: results)

/-- A section is entered from states with `pre`, and what its content keeps leads back to them. -/
theorem meets_inSection {label : String} {content : Decode α}
    (enter : ∀ s body rest, pre s → Read.substream s.input = .ok body rest →
      inv { s with input := rest, source := { s.source with body := body } })
    (hcontent : Meets inv content (fun _ => inv) (Error.Fits site)) (leave : ∀ s, inv s → pre s) :
    Meets pre (inSection label content) (fun _ => pre) (Error.Fits site) := by
  have hsubstream : Meets pre (fromInput Read.substream)
      (fun body s => inv { s with source := { s.source with body := body } }) (Error.Fits site) :=
    meets_fromInput Read.plain_substream enter
  refine hsubstream.bind fun body => Meets.bind (meets_modify fun _ hs => ?_) fun _ =>
    hcontent.bind fun a => meets_get.bind fun s =>
    (meets_check fun _ => fits_of_expectEnd).bind fun _ => ?_
  · exact hs
  · exact meets_pure fun t ht => leave t ht.1

end Decode

/-! ### Windows of sections and streams

A window is a part of the bytes of the module. Streams are told from sections by where they lie: the
streams come first, and `u` is the state in which they have been read, so all sections start at or
behind the offset of its input. -/

/-- Every stream is read within what it was in `start`: the same streams are there, and each is a
window that ends where the stream ended. -/
structure StreamsWithin (bytes : List UInt8) (start now : StreamReader) : Prop where
  none_iff : now.streams = none ↔ start.streams = none
  within : ∀ map key r, now.streams = some map → map.find? key = some r →
    ∃ map₀ r₀, start.streams = some map₀ ∧ map₀.find? key = some r₀ ∧
      r.Within bytes ⟨r₀.offset, r₀.offset + r₀.remaining⟩

/-- The sections of a module are decoded from `u` on, and one may have come to its end. Nothing is
said of the body, which is left over from the section before. -/
structure BetweenSections (bytes : List UInt8) (u s : DecodeState) : Prop where
  input : s.input.Within bytes ⟨0, bytes.length⟩
  behind : u.input.offset ≤ s.input.offset
  streams : StreamsWithin bytes u.source s.source

/-- One of the sections from `u` on is decoded, and what is left of it is the end of a window behind
all streams. -/
structure InSection (bytes : List UInt8) (u s : DecodeState) : Prop extends
    BetweenSections bytes u s where
  body : ∃ w : Window, w.Framed bytes ∧ u.input.offset ≤ w.start ∧ s.source.body.Within bytes w

/-- The name of the tag whose token stands at an offset of the bytes of a module, if what stands
there can be read as the token of a tag at all. -/
def DecodeInput.tagNameAt (input : DecodeInput) (bytes : List UInt8) (offset : Nat) :
    Option String :=
  match input.wire.indexEncoding.readIndex ⟨bytes.drop offset, offset⟩ with
  | .ok index _ => input.tags[index]?.map input.registry.tagName
  | .error _ _ => none

/-- The token of a tag of this name has been read while a section went on at `offset`: from there,
or from the stream of `any`, if there are streams. -/
structure TagSite (input : DecodeInput) (bytes : List UInt8) (u : DecodeState) (name : String)
    (offset : Nat) : Prop where
  inWindow : ∃ w : Window,
    w.Framed bytes ∧ u.input.offset ≤ w.start ∧ w.start ≤ offset ∧ offset ≤ w.stop
  inSection : u.source.streams = none → input.tagNameAt bytes offset = some name
  inStream : ∀ map, u.source.streams = some map → ∃ stream token,
    map.find? Builtin.any.seedIndex = some stream ∧ input.tagNameAt bytes token = some name ∧
      stream.offset ≤ token ∧ token < stream.offset + stream.remaining

/-- A step keeps to the section and the streams, and the tags that it reports are read as tokens.
The state `u` in which the streams were read is the same for all steps of a module. -/
abbrev Pinpoints (input : DecodeInput) (bytes : List UInt8) (u : DecodeState) {α : Type}
    (x : Decode α) : Prop :=
  Meets (InSection bytes u) x (fun _ => InSection bytes u) (Error.Fits (TagSite input bytes u))

/-- What has been read of a reader in a window leaves it in the window. -/
theorem within_of_consumes {α : Type} {bytes : List UInt8} {w : Window} {r r' : Reader}
    {read : Read α} {n : Nat} {a : α} (h : r.Within bytes w) (hread : read.Consumes n)
    (hrun : read r = .ok a r') : r'.Within bytes w := by
  obtain ⟨k, -, hk, rfl⟩ := hread r a r' hrun
  exact h.skip hk

/-- Reading from a stream, or from the section if there are no streams, leaves every stream within
what it was. -/
theorem StreamsWithin.advance {α : Type} {bytes : List UInt8} {start now : StreamReader}
    {key n : Nat} {read : Read α} {r r' : Reader} {a : α} (h : StreamsWithin bytes start now)
    (hread : read.Consumes n) (hroute : now.route key = .ok r) (hrun : read r = .ok a r') :
    StreamsWithin bytes start (now.advance key r') := by
  cases hstreams : now.streams with
  | none =>
      simp only [StreamReader.advance, hstreams]
      exact ⟨by simpa [hstreams] using h.none_iff, fun map other s hmap => by simp at hmap⟩
  | some map =>
      simp only [StreamReader.route, hstreams] at hroute
      simp only [StreamReader.advance, hstreams]
      refine ⟨by simpa [hstreams] using h.none_iff, fun map' other s hmap hfind => ?_⟩
      obtain rfl := Option.some.inj hmap
      -- Only the stream that was read has changed; it stays in its window because reading
      -- consumes from the front.
      rw [TagMap.find?_insert] at hfind
      split at hfind
      · rename_i hother
        obtain rfl := Option.some.inj hfind
        split at hroute
        · rename_i hkey
          obtain rfl := Except.ok.inj hroute
          obtain ⟨map₀, r₀, hmap₀, hr₀, hwithin⟩ := h.within map key _ hstreams hkey
          exact ⟨map₀, r₀, hmap₀, hother ▸ hr₀, within_of_consumes hwithin hread hrun⟩
        · cases hroute
      · exact h.within map other s hstreams hfind

variable {bytes : List UInt8} {input : DecodeInput} {u s t : DecodeState}

namespace DecodeInput

/-- A token that was read from a window is there for everyone who looks: the reader sees no further
than its window, but reading is local, so the bytes behind the window make no difference. -/
theorem tagNameAt_of_within {r r' : Reader} {w : Window} {index : Nat} {tag : Tag}
    (h : r.Within bytes w) (hrun : input.wire.indexEncoding.readIndex r = .ok index r')
    (htag : input.tags[index]? = some tag) :
    input.tagNameAt bytes r.offset = some (input.registry.tagName tag) := by
  -- What was used of the reader is a prefix of the bytes at its offset, with any bytes after it.
  obtain ⟨used, hused, htakes⟩ := input.wire.indexEncoding.local_readIndex _ _ _ hrun
  have hdrop : bytes.drop r.offset = used ++ (r'.unread ++ bytes.drop w.stop) := by
    rw [← List.append_assoc, ← hused, h.drop_eq]
  have hread := htakes (r'.unread ++ bytes.drop w.stop) r.offset
  simp only [tagNameAt, hdrop, hread, htag, Option.map_some]

/-- The token of a tag that is read stands in the section, where this goes on, or in the stream of
`any`. -/
theorem tagSite_of_readTag {tag : Tag} (hs : InSection bytes u s)
    (h : input.readTag s = .ok tag t) :
    TagSite input bytes u (input.registry.tagName tag) s.source.body.offset := by
  obtain ⟨⟨offset, index⟩, v, hread, h₁⟩ := run_bind_eq_ok.mp h
  obtain ⟨htag, rfl⟩ := Decode.require_eq_ok.mp h₁
  obtain ⟨reader, rest, hroute, hlocated, rfl⟩ := Decode.fromStream_eq_ok.mp hread
  obtain ⟨-, hindex⟩ := located_eq_ok.mp hlocated
  obtain ⟨w, hframed, hstart, hbody⟩ := hs.body
  -- The offset that was noted is in the window of the section in any case. The token is there,
  -- too, if the reader of `any` is the section, and otherwise in the stream of `any`.
  refine ⟨⟨w, hframed, hstart, hbody.start_le, hbody.stop_eq ▸ Nat.le_add_right _ _⟩,
    fun hnone => ?_, fun map hmap => ?_⟩
  · simp only [StreamReader.route, hs.streams.none_iff.mpr hnone, Except.ok.injEq] at hroute
    subst hroute
    exact tagNameAt_of_within hbody hindex htag
  · cases hstreams : s.source.streams with
    | none => simp [hs.streams.none_iff.mp hstreams] at hmap
    | some now =>
        simp only [StreamReader.route, hstreams] at hroute
        split at hroute
        · rename_i stream hkey
          obtain rfl := Except.ok.inj hroute
          obtain ⟨map₀, r₀, hmap₀, hr₀, hwithin⟩ := hs.streams.within now _ _ hstreams hkey
          obtain rfl := Option.some.inj (hmap₀.symm.trans hmap)
          -- The token has at least a byte, so it starts before the end of the stream.
          have htaken := (input.wire.indexEncoding.consumes_readIndex).remaining_add_le hindex
          have hstop : stream.offset + stream.remaining = r₀.offset + r₀.remaining :=
            hwithin.stop_eq
          exact ⟨r₀, _, hr₀, tagNameAt_of_within hwithin hindex htag, hwithin.start_le, by omega⟩
        · cases hroute

end DecodeInput

/-- Reading a value, from its stream or from the section, keeps to both. -/
theorem InSection.advance {α : Type} {key n : Nat} {read : Read α} {r r' : Reader} {a : α}
    (h : InSection bytes u s) (hread : read.Consumes n) (hroute : s.source.route key = .ok r)
    (hrun : read r = .ok a r') : InSection bytes u { s with source := s.source.advance key r' } := by
  refine ⟨⟨h.input, h.behind, h.streams.advance hread hroute hrun⟩, ?_⟩
  obtain ⟨w, hframed, hstart, hbody⟩ := h.body
  refine ⟨w, hframed, hstart, ?_⟩
  cases hstreams : s.source.streams with
  | none =>
      simp only [StreamReader.route, hstreams, Except.ok.injEq] at hroute
      subst hroute
      simpa only [StreamReader.advance, hstreams] using within_of_consumes hbody hread hrun
  | some map => simpa only [StreamReader.advance, hstreams] using hbody

/-! ### Steps

One lemma for each primitive of the decoder. Most hold because the primitive reads from one window
and reports no tag; `pinpoints_tagged` is the exception, and the only lemma through which a tag that
was read may get into an error. -/

section Steps

variable {α : Type}

/-- Nodes and references to be checked are of no account, for neither windows nor sites look at
them. -/
theorem pinpoints_modify {f : DecodeState → DecodeState}
    (h : ∀ s, (f s).input = s.input ∧ (f s).source = s.source) :
    Pinpoints input bytes u (modify f) := by
  refine meets_modify fun s hs => ?_
  obtain ⟨hinput, hsource⟩ := h s
  exact ⟨⟨hinput ▸ hs.input, hinput ▸ hs.behind, hsource ▸ hs.streams⟩, hsource ▸ hs.body⟩

theorem pinpoints_fromSection {read : Read α} {n : Nat} (hread : read.Consumes n)
    (hplain : read.Plain) : Pinpoints input bytes u (Decode.fromSection read) := by
  refine Decode.meets_fromSection hplain fun s a rest hs hrun => ?_
  obtain ⟨w, hframed, hstart, hbody⟩ := hs.body
  exact ⟨⟨hs.input, hs.behind, hs.streams.none_iff, hs.streams.within⟩,
    w, hframed, hstart, within_of_consumes hbody hread hrun⟩

theorem pinpoints_count {label : String} {expected : Nat} :
    Pinpoints input bytes u (Decode.count label expected) :=
  (pinpoints_fromSection Read.consumes_nat32 Read.plain_nat32).bind fun _ =>
    Decode.meets_ensure trivial

namespace DecodeInput

theorem plain_located {read : Read α} (h : read.Plain) : (located read).Plain :=
  Read.plain_offset.bind fun _ => h.bind fun _ => Read.plain_pure _

theorem pinpoints_fromTag {tag : Tag} {read : Read α} {n : Nat} (hread : read.Consumes n)
    (hplain : read.Plain) : Pinpoints input bytes u (input.fromTag tag read) :=
  Decode.meets_fromStream hplain fun _ _ _ _ hs hroute hrun => hs.advance hread hroute hrun

theorem pinpoints_readTag : Pinpoints input bytes u input.readTag :=
  (pinpoints_fromTag (consumes_located input.wire.indexEncoding.consumes_readIndex)
    (plain_located input.wire.indexEncoding.plain_readToken)).bind fun _ =>
      Decode.meets_require trivial

/-- A tag that is read may be reported at the offset that was noted before. What follows is given
the site of the tag, and has to keep to the windows itself. -/
theorem pinpoints_tagged {next : Nat → Tag → Decode α}
    (h : ∀ offset tag, TagSite input bytes u (input.registry.tagName tag) offset →
      Pinpoints input bytes u (next offset tag)) :
    Pinpoints input bytes u (do next (← Decode.offset) (← input.readTag)) := by
  have hoffset : Meets (InSection bytes u) Decode.offset
      (fun n s => InSection bytes u s ∧ n = s.source.body.offset)
      (Error.Fits (TagSite input bytes u)) :=
    Decode.meets_fromSection Read.plain_offset fun s n rest hs hrun => by
      cases hrun
      exact ⟨hs, rfl⟩
  -- Between the two reads the state is still the one in which the offset was noted.
  have htag : ∀ n, Meets (fun s => InSection bytes u s ∧ n = s.source.body.offset) input.readTag
      (fun tag s => InSection bytes u s ∧ TagSite input bytes u (input.registry.tagName tag) n)
      (Error.Fits (TagSite input bytes u)) := fun n =>
    ⟨fun s tag t hs hrun =>
      ⟨pinpoints_readTag.ok s tag t hs.1 hrun, hs.2 ▸ tagSite_of_readTag hs.1 hrun⟩,
      fun s e t hs hrun => pinpoints_readTag.error s e t hs.1 hrun⟩
  exact hoffset.bind fun n => (htag n).bind fun tag => .of_and fun hsite => h n tag hsite

theorem pinpoints_nullOr {nullable : Bool} {offset : Nat} {expected : String} :
    Pinpoints input bytes u (nullOr nullable offset expected) := by
  unfold nullOr
  exact meets_ite (meets_pure fun _ hs => hs) (Decode.meets_fail trivial)

theorem pinpoints_objectRef {expected : Option ShapeId} {index offset : Nat} :
    Pinpoints input bytes u (input.objectRef expected index offset) :=
  Meets.bind (Decode.meets_ensure trivial) fun _ =>
    Meets.bind (pinpoints_modify fun _ => ⟨rfl, rfl⟩) fun _ => meets_pure fun _ hs => hs

theorem pinpoints_reference {tag : Tag} :
    Pinpoints input bytes u (input.fromTag tag (located input.wire.indexEncoding.readReference)) :=
  pinpoints_fromTag (consumes_located input.wire.indexEncoding.consumes_readReference)
    (plain_located input.wire.indexEncoding.plain_readReference)

end DecodeInput

theorem pinpoints_pushNode {node : Node} : Pinpoints input bytes u (pushNode node) := by
  have hpush : Pinpoints input bytes u (modify fun s => { s with nodes := s.nodes.push node }) :=
    pinpoints_modify fun _ => ⟨rfl, rfl⟩
  refine meets_get.bind fun s => Meets.bind ?_ fun _ => meets_pure fun _ hs => hs
  exact hpush.mono (fun _ hs => hs.1) fun _ _ hs => hs

theorem pinpoints_setNode {position : Nat} {node : Node} :
    Pinpoints input bytes u (setNode position node) :=
  pinpoints_modify fun _ => ⟨rfl, rfl⟩

end Steps

/-! ### Slots

The cases are those of the decoder. A tag is reported in three places, each behind
`pinpoints_tagged`: the marker of an object slot, the tag in front of a value, and, in the next
section, the tag of an entry. -/

namespace DecodeInput

variable {readFields : ShapeId → Decode Object}

/-- The marker of an object slot may be reported, if it is neither null nor `object` nor a shape, or
a shape that does not belong here. -/
theorem pinpoints_objectSlot (hfields : ∀ shape, Pinpoints input bytes u (readFields shape))
    (expected : Option ShapeId) (nullable : Bool) :
    Pinpoints input bytes u (input.objectSlot readFields expected nullable) := by
  simp only [objectSlot]
  -- With a marker there are four cases: null, a reference, an object in place and a tag that is
  -- none of these. Without one there is only the reference.
  refine meets_ite (pinpoints_tagged fun offset tag hsite => ?_)
    (Meets.bind pinpoints_reference fun x => ?_)
  · split
    · exact pinpoints_nullOr
    · refine Meets.bind (pinpoints_fromTag
        (consumes_located input.wire.indexEncoding.consumes_readIndex)
        (plain_located input.wire.indexEncoding.plain_readToken)) fun x => ?_
      exact pinpoints_objectRef
    · refine Meets.bind (Decode.meets_ensure fun _ => hsite) fun _ => (hfields _).bind fun object =>
        pinpoints_pushNode.bind fun id => ?_
      exact meets_pure fun _ hs => hs
    · exact Decode.meets_fail fun _ => hsite
  · split
    · exact pinpoints_objectRef
    · exact pinpoints_nullOr

theorem pinpoints_underTag (hfields : ∀ shape, Pinpoints input bytes u (readFields shape))
    (tag : Tag) (nullable : Bool) :
    Pinpoints input bytes u (input.underTag readFields tag nullable) := by
  have hpure : ∀ {value : Value}, Pinpoints input bytes u (pure value) :=
    meets_pure fun _ hs => hs
  cases tag with
  | shape shape => exact pinpoints_objectSlot hfields (some shape) nullable
  | builtin b =>
      cases b with
      | null | trueValue | falseValue => exact hpure
      | integer =>
          exact (pinpoints_fromTag input.wire.indexEncoding.consumes_readInteger
            input.wire.indexEncoding.plain_readInteger).bind fun _ => hpure
      | double => exact (pinpoints_fromTag Read.consumes_double Read.plain_double).bind fun _ => hpure
      | string =>
          refine pinpoints_reference.bind fun reference => ?_
          split
          · exact Meets.bind (Decode.meets_require trivial) fun _ => hpure
          · exact pinpoints_nullOr
      | array =>
          refine pinpoints_reference.bind fun reference => ?_
          split
          · exact Meets.bind (Decode.meets_ensure trivial) fun _ => hpure
          · exact pinpoints_nullOr
      | object => exact pinpoints_objectSlot hfields none nullable
      -- These kinds are no tags of values. The error names a declaration, not a token.
      | any | boolean | number =>
          refine (pinpoints_fromSection Read.consumes_offset Read.plain_offset).bind fun offset => ?_
          exact Decode.meets_fail fun h => h.elim

/-- The tag in front of a value may be reported, if the declaration does not accept it. -/
theorem pinpoints_slot (hfields : ∀ shape, Pinpoints input bytes u (readFields shape))
    (codec : Codec) : Pinpoints input bytes u (input.slot readFields codec) := by
  cases codec with
  | fixed tag nullable => exact pinpoints_underTag hfields tag nullable
  | tagged decl =>
      refine pinpoints_tagged fun offset tag hsite => ?_
      -- The check of the kind reports no token, the check of the declaration does.
      exact Meets.bind (Decode.meets_ensure trivial) fun _ =>
        Meets.bind (Decode.meets_ensure fun _ => hsite) fun _ => pinpoints_underTag hfields tag false

theorem pinpoints_fieldSlots (hfields : ∀ shape, Pinpoints input bytes u (readFields shape))
    (shape : ShapeId) : Pinpoints input bytes u (input.fieldSlots readFields shape) :=
  Meets.bind (meets_mapM fun _ _ => pinpoints_slot hfields _) fun _ => meets_pure fun _ hs => hs

theorem pinpoints_fieldsWithin (depth : Nat) (shape : ShapeId) :
    Pinpoints input bytes u (input.fieldsWithin depth shape) := by
  induction depth generalizing shape with
  | zero => exact Meets.bind meets_get fun _ => Decode.meets_fail trivial
  | succ depth ih => exact pinpoints_fieldSlots ih shape

theorem pinpoints_objectFields (shape : ShapeId) :
    Pinpoints input bytes u (input.objectFields shape) :=
  pinpoints_fieldsWithin _ shape

/-! ### Sections

Tables, arrays and the root are sections, each entered from between two sections and left again.
Their order does not matter here, only that all of them come after the streams. -/

/-- The tag of an entry may be reported, if it is no shape. -/
theorem pinpoints_readTableEntry (slots : ObjectSlots) (index : Nat) :
    Pinpoints input bytes u (input.readTableEntry slots index) := by
  refine pinpoints_tagged fun offset tag hsite => ?_
  cases tag with
  | builtin b => exact Decode.meets_fail fun _ => hsite
  | shape shape =>
      exact Meets.bind (Decode.meets_ensure trivial) fun _ =>
        (pinpoints_objectFields shape).bind fun _ => pinpoints_setNode

theorem pinpoints_readTable (slots : ObjectSlots) :
    Pinpoints input bytes u (input.readTable slots) :=
  pinpoints_count.bind fun _ =>
    (Decode.meets_replicate (pinpoints_readTableEntry slots)).bind fun _ => meets_pure fun _ hs => hs

theorem pinpoints_readElements (length : Nat) :
    Pinpoints input bytes u (input.readElements length) := by
  refine meets_ite (meets_pure fun _ hs => hs) (pinpoints_readTag.bind fun tag => ?_)
  exact Decode.meets_replicate fun _ => pinpoints_slot pinpoints_objectFields _

theorem pinpoints_readArray (index : Nat) : Pinpoints input bytes u (input.readArray index) := by
  refine Meets.bind (pinpoints_fromSection (consumes_located Read.consumes_unsigned)
    (plain_located Read.plain_varint)) fun x => ?_
  exact Meets.bind (Decode.meets_ensure trivial) fun _ =>
    (pinpoints_readElements _).bind fun _ => pinpoints_setNode

theorem pinpoints_readArrays : Pinpoints input bytes u input.readArrays :=
  pinpoints_count.bind fun _ =>
    (Decode.meets_replicate pinpoints_readArray).bind fun _ => meets_pure fun _ hs => hs

/-- A section that is entered is a window behind all streams, because it is framed at the offset of
the input, which only ever moves on. -/
theorem meets_section {α : Type} {label : String} {content : Decode α}
    (h : Pinpoints input bytes u content) :
    Meets (BetweenSections bytes u) (Decode.inSection label content)
      (fun _ => BetweenSections bytes u) (Error.Fits (TagSite input bytes u)) := by
  refine Decode.meets_inSection (fun s body rest hs hread => ?_) h fun s hs => hs.toBetweenSections
  obtain ⟨hrest, hbody, hframed, -, hstop⟩ := hs.input.substream hread
  obtain ⟨hoffset, -⟩ := Read.offset_of_substream hread
  have hbehind := hs.behind
  refine ⟨⟨hrest, ?_, hs.streams.none_iff, hs.streams.within⟩, _, hframed, ?_, hbody⟩
  · show u.input.offset ≤ rest.offset
    omega
  · show u.input.offset ≤ body.offset
    omega

/-- All sections, from where the streams end. Of the state after the last check nothing is needed,
for no error can follow it. -/
theorem meets_sections : Meets (BetweenSections bytes u) (do
      input.tables.forM fun slots => Decode.inSection slots.label (input.readTable slots)
      Decode.inSection "arrays" input.readArrays
      let root ← Decode.inSection "root" (input.slot input.objectFields (.tagged .any))
      Decode.check (← get).source.expectEnd
      pure root) (fun _ _ => True) (Error.Fits (TagSite input bytes u)) := by
  refine (meets_forM fun slots _ => meets_section (pinpoints_readTable slots)).bind fun _ =>
    (meets_section pinpoints_readArrays).bind fun _ =>
    (meets_section (pinpoints_slot pinpoints_objectFields _)).bind fun root =>
    meets_get.bind fun s => ?_
  refine Meets.bind (Decode.meets_check fun e he => ?_) fun _ => meets_pure fun _ _ => trivial
  obtain ⟨⟨key, stream⟩, -, hend⟩ := forM_eq_error he
  exact Decode.fits_of_expectEnd hend

end DecodeInput

end Module

end SyntaxPack
