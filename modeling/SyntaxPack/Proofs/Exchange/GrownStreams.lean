import SyntaxPack.Proofs.Decode.Streams
import SyntaxPack.Proofs.Exchange.Grown
/-!
# SyntaxPack.Proofs.Exchange.GrownStreams

Value streams whose bytes have grown.

The value streams of a module are stored before the sections whose tokens they hold, and
whether they have been read to their ends is only known after the last section. No two
of them have the same tag, so what follows a stream in the end is what it has grown by.
-/

namespace SyntaxPack

namespace Module

open Segment

variable {rel : ShapeId → ShapeId → Prop} {stream : Nat → List UInt8 → Prop}
  {grown : String → Nat → Prop} {input input' : DecodeInput} {s s' t t' : DecodeState}

/-! ### The segments of streams

A stream is two segments, its tag index and a frame. The index has no frame and stays as it is, so
what has grown in the segments of streams are the streams. -/

/-- The segments of a stream: the index of its tag, and its bytes. -/
def entrySegments (entry : Nat × List UInt8) : List Segment :=
  [.plain (Bytes.fixed 4 entry.1), .framed (streamLabel entry.1) entry.2]

theorem unframe_entrySegments (entry : Nat × List UInt8) (entries : List (Nat × List UInt8)) :
    unframe ((entry :: entries).flatMap entrySegments) = Bytes.fixed 4 entry.1 ++
      ((Segment.framed (streamLabel entry.1) entry.2).bytes ++
        unframe (entries.flatMap entrySegments)) := by
  rw [List.flatMap_cons, entrySegments, List.cons_append, List.cons_append, List.nil_append,
    unframe_cons, unframe_cons]
  rfl

/-- Streams of the same tag, the second of which may have more bytes. -/
def StreamGrows (stream : Nat → List UInt8 → Prop) (entry entry' : Nat × List UInt8) : Prop :=
  entry'.1 = entry.1 ∧ ∃ more, entry'.2 = entry.2 ++ more ∧
    (more ≠ [] → (entry.2 ++ more).length < UInt32.size) ∧ stream entry.1 more

/-- What has grown in the segments of streams are the streams. -/
theorem exists_of_grows {entries : List (Nat × List UInt8)} {segs' : List Segment}
    (h : List.Forall₂ (Grows grown) (entries.flatMap entrySegments) segs') :
    ∃ entries', segs' = entries'.flatMap entrySegments ∧
      List.Forall₂ (StreamGrows fun key more => more ≠ [] → grown (streamLabel key) more.length)
        entries entries' := by
  induction entries generalizing segs' with
  | nil =>
      rw [List.flatMap_nil, List.forall₂_nil_left_iff] at h
      exact ⟨[], h, .nil⟩
  | cons entry entries ih =>
      obtain ⟨key, body⟩ := entry
      rw [List.flatMap_cons] at h
      obtain ⟨head, rest, rfl, hhead, hrest⟩ := exists_of_forall₂_append h
      obtain ⟨entries', rfl, hentries⟩ := ih hrest
      obtain ⟨_, _, hplain, htail, rfl⟩ := List.forall₂_cons_left_iff.mp hhead
      obtain ⟨_, _, hframed, hnil, rfl⟩ := List.forall₂_cons_left_iff.mp htail
      rw [List.forall₂_nil_left_iff] at hnil
      subst hnil
      cases hplain with
      | plain =>
        cases hframed with
        | framed _ _ more hlt hgrown =>
          exact ⟨(key, body ++ more) :: entries', rfl, .cons ⟨rfl, more, rfl, hlt, hgrown⟩ hentries⟩

/-! ### Storing the streams

`Stores` is what storing comes to, read by read, without the state around it. The same streams with
more bytes are stored by the same reads, into a map with the same keys. -/

/-- From a reader streams are stored one after another in a map, each under a tag that has
none yet, up to another reader and another map. -/
inductive Stores : List (Nat × List UInt8) → TagMap Reader → Reader → TagMap Reader → Reader → Prop
  | nil (map : TagMap Reader) (r : Reader) : Stores [] map r map r
  | cons {key : Nat} {body r₁ r₂ r₃ r₄ : Reader} {map map' : TagMap Reader}
      {entries : List (Nat × List UInt8)} (hnew : map.find? key = none)
      (hkey : Read.nat32 r₁ = .ok key r₂) (hbody : Read.substream r₂ = .ok body r₃)
      (hrest : Stores entries (map.insert key body) r₃ map' r₄) :
      Stores ((key, body.unread) :: entries) map r₁ map' r₄

theorem stores_of_go {more index : Nat} {results items : List Unit} {map : TagMap Reader}
    (hmap : s.source.streams = some map)
    (hrun : Decode.replicate.go input.readStream more index results s = .ok items t) :
    ∃ entries map', Stores entries map s.input map' t.input ∧ entries.length = more ∧
      (∀ entry ∈ entries, entry.1 < input.tags.size) ∧
      t = { s with input := t.input, source := ⟨s.source.body, some map'⟩ } := by
  induction more generalizing index results s map with
  | zero =>
      obtain ⟨-, rfl⟩ := run_pure_eq_ok.mp hrun
      exact ⟨[], map, .nil map s.input, rfl, by simp, by rw [← hmap]⟩
  | succ more ih =>
      obtain ⟨_, u, hstep, hrest⟩ := run_bind_eq_ok.mp hrun
      obtain ⟨key, r, body, htag, hnew, hkey, hbody, hu⟩ := DecodeInput.readStream_cases hmap hstep
      have humap : u.source.streams = some (map.insert key body) := by rw [hu]
      obtain ⟨entries, map', hstores, hlength, htags, ht⟩ := ih humap hrest
      refine ⟨(key, body.unread) :: entries, map', .cons hnew hkey hbody hstores,
        congrArg (· + 1) hlength, ?_, ?_⟩
      · intro entry hentry
        rcases List.mem_cons.mp hentry with rfl | hentry
        · exact htag
        · exact htags entry hentry
      · rw [ht, hu]

namespace Stores

variable {entries entries' : List (Nat × List UInt8)} {map map' map₁ : TagMap Reader}
  {r r' : Reader}

/-- The streams are found as segments. -/
theorem frame (h : Stores entries map r map' r') (parts : List (List Segment)) :
    Read.replicate.go readStreamSegments entries.length parts r =
      .ok (parts.reverse ++ entries.map entrySegments) r' := by
  induction h generalizing parts with
  | nil map r => simp [Read.replicate.go]
  | @cons key body r₁ r₂ r₃ r₄ map map' entries hnew hkey hbody _ ih =>
      obtain ⟨bytes, hbytes, hunread, -⟩ := Read.local_nat32.run_withBytes hkey
      have hindex : bytes = Bytes.fixed 4 key := by
        rw [Read.unread_of_nat32 hkey] at hunread
        exact (List.append_cancel_right hunread).symm
      have hstep : readStreamSegments r₁ = .ok (entrySegments (key, body.unread)) r₃ := by
        rw [readStreamSegments, run_bind_of_ok hbytes, hindex]
        simp only
        rw [run_bind_of_ok (run_readFramed hbody _).1]
        rfl
      rw [List.length_cons, Read.replicate.go, run_bind_of_ok hstep, ih]
      simp

/-- No two streams have the same tag, and none has one that was taken before. -/
theorem nodup (h : Stores entries map r map' r') :
    (entries.map (·.1)).Nodup ∧ ∀ key ∈ entries.map (·.1), map.find? key = none := by
  induction h with
  | nil => simp
  | @cons key body r₁ r₂ r₃ r₄ map map' entries hnew _ _ _ ih =>
      obtain ⟨hnodup, hkeys⟩ := ih
      -- A later stream has a tag that is free even after this one has been stored.
      have hfresh : ∀ other ∈ entries.map (·.1), other ≠ key ∧ map.find? other = none := by
        intro other hother
        have hnone := hkeys other hother
        rw [TagMap.find?_insert] at hnone
        split at hnone
        · simp at hnone
        · rename_i hne
          exact ⟨hne, hnone⟩
      have hnotMem : key ∉ entries.map (·.1) := fun hmem => (hfresh key hmem).1 rfl
      refine ⟨List.nodup_cons.mpr ⟨hnotMem, hnodup⟩, fun other hother => ?_⟩
      rcases List.mem_cons.mp hother with rfl | hother
      · exact hnew
      · exact (hfresh other hother).2

/-- Every stream is in the map in the end. -/
theorem isSome (h : Stores entries map r map' r') {key : Nat}
    (hkey : (map.find? key).isSome = true ∨ key ∈ entries.map (·.1)) :
    (map'.find? key).isSome = true := by
  induction h with
  | nil => simpa using hkey
  | @cons other body r₁ r₂ r₃ r₄ map map' entries _ _ _ _ ih =>
      refine ih ?_
      rw [TagMap.find?_insert]
      by_cases hother : key = other
      · exact .inl (by rw [if_pos hother]; rfl)
      · rw [if_neg hother]
        refine hkey.imp id fun hmem => ?_
        exact (List.mem_cons.mp hmem).resolve_left hother

/-- Streams that have grown are stored under the same tags. -/
theorem run_go (input : DecodeInput) (h : Stores entries map r map' r')
    (hentries : List.Forall₂ (StreamGrows stream) entries entries')
    (htags : ∀ entry ∈ entries, entry.1 < input.tags.size) (hmap : s.source.streams = some map₁)
    (hrelated : map.Related (fun key => Reader.ExtendedBy (stream key)) map₁)
    {rest : List UInt8} {offset : Nat}
    (hinput : s.input = ⟨unframe (entries'.flatMap entrySegments) ++ rest, offset⟩)
    (index : Nat) (results : List Unit) :
    ∃ items map₁', Decode.replicate.go input.readStream entries.length index results s = .ok items
        { s with
          input := ⟨rest, offset + (unframe (entries'.flatMap entrySegments)).length⟩
          source := ⟨s.source.body, some map₁'⟩ } ∧
      map'.Related (fun key => Reader.ExtendedBy (stream key)) map₁' := by
  induction h generalizing s map₁ entries' index results offset with
  | nil map r =>
      rw [List.forall₂_nil_left_iff] at hentries
      subst hentries
      obtain ⟨file, ⟨body, streams⟩, nodes, shapeRefs⟩ := s
      obtain rfl : streams = some map₁ := hmap
      obtain rfl : file = ⟨rest, offset⟩ := hinput
      exact ⟨results.reverse, map₁, rfl, hrelated⟩
  | @cons key body r₁ r₂ r₃ r₄ map map' entries hnew hkey hbody _ ih =>
      obtain ⟨⟨key', body'⟩, rest', ⟨hkeys, more, hbody', hlt', hmore⟩, hrest, rfl⟩ :=
        List.forall₂_cons_left_iff.mp hentries
      obtain rfl : key' = key := hkeys
      obtain rfl : body' = body.unread ++ more := hbody'
      -- Both maps have the same keys, so the tag is free on this side, too.
      have hnone : map₁.find? key' = none := hrelated.find?_eq_none hnew
      have hlt := length_append_lt (run_readFramed hbody (streamLabel key')).2.1 hlt'
      have hframed := framed_eq_ok hlt (streamLabel key')
      have hinput' : s.input = ⟨Bytes.fixed 4 key' ++
          ((Segment.framed (streamLabel key') (body.unread ++ more)).bytes ++
            (unframe (rest'.flatMap entrySegments) ++ rest)), offset⟩ := by
        rw [hinput, unframe_entrySegments, List.append_assoc, List.append_assoc]
      let stored : Reader := ⟨body.unread ++ more, offset + (Bytes.fixed 4 key').length + 4⟩
      let u : DecodeState := { s with
        input := ⟨unframe (rest'.flatMap entrySegments) ++ rest,
          offset + (Bytes.fixed 4 key').length +
            (Segment.framed (streamLabel key') (body.unread ++ more)).bytes.length⟩
        source := ⟨s.source.body, some (map₁.insert key' stored)⟩ }
      have hstep : input.readStream index s = .ok () u :=
        DecodeInput.run_readStream (htags _ List.mem_cons_self) (Read.lt_of_nat32 hkey) hframed
          hinput' hmap hnone
      obtain ⟨items, map₁', hloop, hend⟩ := ih (s := u) hrest
        (fun entry hentry => htags entry (List.mem_cons_of_mem _ hentry)) rfl
        (hrelated.insert ⟨more, hmore, rfl⟩) rfl (index + 1) (() :: results)
      refine ⟨items, map₁', ?_, hend⟩
      rw [List.length_cons, Decode.replicate.go, run_bind_of_ok hstep, hloop, unframe_entrySegments,
        List.length_append, List.length_append, ← Nat.add_assoc, ← Nat.add_assoc]

/-- The streams are stored on the other side as they have grown. -/
theorem run_readStreams (h : Stores entries [] r map' r') (hwire : input.wire.valueStreams = true)
    (hentries : List.Forall₂ (StreamGrows stream) entries entries')
    (htags : ∀ entry ∈ entries, entry.1 < input.tags.size) {number rest : List UInt8} {offset : Nat}
    (hnumber : Read.nat32.Takes number entries.length)
    (hinput : s.input =
      ⟨unframe (.plain number :: entries'.flatMap entrySegments) ++ rest, offset⟩) :
    ∃ map₁, input.readStreams s = .ok () { s with
        input := ⟨rest,
          offset + (unframe (.plain number :: entries'.flatMap entrySegments)).length⟩
        source := ⟨s.source.body, some map₁⟩ } ∧
      map'.Related (fun key => Reader.ExtendedBy (stream key)) map₁ := by
  have hread : Read.nat32 s.input = .ok entries.length
      ⟨unframe (entries'.flatMap entrySegments) ++ rest, offset + number.length⟩ := by
    rw [hinput, unframe_cons, List.append_assoc]
    exact hnumber _ offset
  obtain ⟨items, map₁, hloop, hrelated⟩ := h.run_go input
    (s := { s with
      input := ⟨unframe (entries'.flatMap entrySegments) ++ rest, offset + number.length⟩
      source := ⟨s.source.body, some []⟩ })
    hentries htags rfl .nil rfl 0 []
  refine ⟨map₁, ?_, hrelated⟩
  simp only [DecodeInput.readStreams, hwire, if_true]
  rw [run_bind_of_ok (Decode.fromInput_eq_ok.mpr ⟨_, hread, rfl⟩), run_bind_of_ok run_modify]
  rw [Decode.replicate, run_bind_of_ok hloop, unframe_cons, List.length_append, ← Nat.add_assoc]
  rfl

end Stores

/-! ### All streams

What a stream has grown by is looked up by its tag. Since tags are distinct this defines a relation
between tags and bytes, `stream`, and at the end something of it is left behind or nothing is. -/

/-- What is left behind the streams in the end settles whether anything has grown: nothing
that has not grown can be left there, and everything that has grown must be. -/
structure Settles (grown : String → Nat → Prop) (segs segs' : List Segment)
    (stream : Nat → List UInt8 → Prop) : Prop where
  grown : ∀ key more, stream key more → more ≠ [] → grown (streamLabel key) more.length
  same : (∀ key more, stream key more → more ≠ [] → stream key []) → segs' = segs

/-- The tags of streams tell which of them have grown, and by what. -/
theorem settles_of_nodup {entries entries' : List (Nat × List UInt8)}
    (hnodup : (entries.map (·.1)).Nodup)
    (h : List.Forall₂ (StreamGrows fun key more => more ≠ [] → grown (streamLabel key) more.length)
      entries entries') (number : Segment) :
    ∃ stream, List.Forall₂ (StreamGrows stream) entries entries' ∧
      (∀ key more, stream key more → key ∈ entries.map (·.1)) ∧
      Settles grown (number :: entries.flatMap entrySegments)
        (number :: entries'.flatMap entrySegments) stream := by
  induction h with
  | nil =>
      exact ⟨fun _ _ => False, .nil, fun _ _ hfalse => hfalse.elim, fun _ _ hfalse => hfalse.elim,
        fun _ => rfl⟩
  | @cons entry entry' entries entries' hentry hentries ih =>
      obtain ⟨key, body⟩ := entry
      obtain ⟨key', body'⟩ := entry'
      obtain ⟨hkeys, more, hbody', hlt, hgrown⟩ := hentry
      obtain rfl : key' = key := hkeys
      obtain rfl : body' = body ++ more := hbody'
      obtain ⟨hnot, hnodup⟩ := List.nodup_cons.mp hnodup
      obtain ⟨stream, hfollows, hkeys, hsettles⟩ := ih hnodup
      -- The new stream has a tag of its own, so what is said of it is apart from the rest.
      refine ⟨fun key bytes => stream key bytes ∨ key = key' ∧ bytes = more, .cons ?_ ?_, ?_, ?_, ?_⟩
      · exact ⟨rfl, more, rfl, hlt, .inr ⟨rfl, rfl⟩⟩
      · refine hfollows.imp fun other other' ⟨hsame, bytes, hbytes, hlt, hstream⟩ => ?_
        exact ⟨hsame, bytes, hbytes, hlt, .inl hstream⟩
      · rintro other bytes (hstream | ⟨rfl, -⟩)
        · exact List.mem_cons_of_mem _ (hkeys other bytes hstream)
        · exact List.mem_cons_self
      · rintro other bytes (hstream | ⟨rfl, rfl⟩) hbytes
        · exact hsettles.grown other bytes hstream hbytes
        · exact hgrown hbytes
      · intro hall
        have hmore : more = [] := by
          by_contra hne
          rcases hall key' more (.inr ⟨rfl, rfl⟩) hne with hstream | ⟨-, hnil⟩
          · exact hnot (hkeys key' [] hstream)
          · exact hne hnil.symm
        have hrest := hsettles.same fun other bytes hstream hbytes => by
          rcases hall other bytes (.inl hstream) hbytes with hnil | ⟨rfl, -⟩
          · exact hnil
          · exact absurd (hkeys other bytes hstream) hnot
        simp only [List.cons.injEq, true_and] at hrest
        rw [List.flatMap_cons, List.flatMap_cons, hrest, hmore, List.append_nil]

/-- The value streams are stored, and what follows them settles what has grown. -/
theorem run_readStreams (h : DecodeInput.Alike rel input input')
    (hrun : input.readStreams s = .ok () t) :
    ∃ segs, readStreamsSegments input.wire.valueStreams s.input = .ok segs t.input ∧
      ∀ (grown : String → Nat → Prop) (segs' : List Segment) (s' : DecodeState) (rest : List UInt8)
        (offset : Nat), Level rel (fun _ _ => False) s s' →
        List.Forall₂ (Grows grown) segs segs' → s'.input = ⟨unframe segs' ++ rest, offset⟩ →
        ∃ stream t', input'.readStreams s' = .ok () t' ∧ Level rel stream t t' ∧
          t'.input = ⟨rest, offset + (unframe segs').length⟩ ∧ Settles grown segs segs' stream := by
  cases hwire : input.wire.valueStreams with
  | false =>
      have hwire' : input'.wire.valueStreams = false := h.wire ▸ hwire
      simp only [DecodeInput.readStreams, hwire, Bool.false_eq_true, if_false, run_pure_eq_ok,
        true_and] at hrun
      subst hrun
      refine ⟨[], rfl, fun grown segs' s' rest offset hs hsegs hinput => ?_⟩
      rw [List.forall₂_nil_left_iff] at hsegs
      subst hsegs
      refine ⟨fun _ _ => False, s', ?_, hs, hinput, fun _ _ hfalse => hfalse.elim, fun _ => rfl⟩
      simp [DecodeInput.readStreams, hwire']
  | true =>
      have hwire' : input'.wire.valueStreams = true := h.wire ▸ hwire
      simp only [DecodeInput.readStreams, hwire, if_true] at hrun
      obtain ⟨count, u, hcount, h₁⟩ := run_bind_eq_ok.mp hrun
      obtain ⟨r, hread, rfl⟩ := Decode.fromInput_eq_ok.mp hcount
      rw [run_bind_of_ok run_modify] at h₁
      obtain ⟨items, v, hloop, h₂⟩ := run_bind_eq_ok.mp h₁
      obtain ⟨-, rfl⟩ := run_pure_eq_ok.mp h₂
      let u : DecodeState := { s with input := r, source := ⟨s.source.body, some []⟩ }
      have hempty : u.source.streams = some [] := rfl
      obtain ⟨entries, map', hstores, rfl, htags, hv⟩ := stores_of_go hempty hloop
      replace hstores : Stores entries [] r map' v.input := hstores
      obtain ⟨number, hnumber, -, htakes⟩ := Read.local_nat32.run_withBytes hread
      have hframe : Read.replicate entries.length readStreamSegments r =
          .ok (entries.map entrySegments) v.input := hstores.frame []
      refine ⟨.plain number :: entries.flatMap entrySegments, ?_,
        fun grown segs' s' rest offset hs hsegs hinput => ?_⟩
      · rw [readStreamsSegments, if_pos rfl, run_bind_of_ok hnumber]
        simp only
        rw [run_bind_of_ok hframe]
        rfl
      · obtain ⟨_, _, hplain, htail, rfl⟩ := List.forall₂_cons_left_iff.mp hsegs
        obtain ⟨entries', rfl, hentries⟩ := exists_of_grows htail
        cases hplain
        -- What each stream has grown by is told by its tag, so it can be said for all at once.
        obtain ⟨stream, hfollows, hkeys, hsettles⟩ :=
          settles_of_nodup hstores.nodup.1 hentries (.plain number)
        have hsize : input.tags.size = input'.tags.size := h.tags.length_eq
        obtain ⟨map₁, hrun', hrelated⟩ := hstores.run_readStreams hwire' hfollows
          (fun entry hentry => hsize ▸ htags entry hentry) htakes hinput
        refine ⟨stream, _, hrun', ⟨?_, fun key more hstream _ => ?_, ?_, ?_⟩, rfl, hsettles⟩
        · rw [hv]
          exact .some hrelated
        · rw [hv]
          exact hstores.isSome (.inr (hkeys key more hstream))
        · rw [hv]
          exact hs.nodes
        · rw [hv]
          exact hs.shapeRefs

/-- At the end, something is left behind a stream, or nothing is that could have been. -/
theorem Level.expectEnd (h : Level rel stream s s') (hend : s.source.expectEnd = .ok ()) :
    (s'.source.expectEnd = .ok () ∧ ∀ key more, stream key more → more ≠ [] → stream key []) ∨
      ∃ key more offset, stream key more ∧ more ≠ [] ∧
        s'.source.expectEnd = .error (.trailingBytes (streamLabel key) offset more.length) := by
  have hstreams := h.streams
  have hpresent := h.present
  simp only [StreamReader.expectEnd] at hend ⊢
  cases hmap : s.source.streams <;> cases hmap' : s'.source.streams <;>
    simp only [hmap, hmap', Option.rel_some_some, Option.not_rel_some_none,
      Option.not_rel_none_some, Option.getD_none, Option.getD_some] at hstreams hpresent hend ⊢
  case none.none =>
    refine .inl ⟨rfl, fun key more hstream hmore => ?_⟩
    exact absurd (hpresent key more hstream hmore) (by simp [TagMap.find?])
  case some.some map map' =>
    -- The first run came to the end of every stream, so what is left is what it has grown by.
    have hunread : ∀ p ∈ map, p.2.unread = [] := fun p hp => by
      simpa [Reader.expectEnd, Reader.isAtEnd] using forM_eq_ok.mp hend p hp
    cases hrun : map'.forM (fun p => p.2.expectEnd s!"value stream #{p.1}") with
    | ok u =>
        refine .inl ⟨rfl, fun key more hstream hmore => ?_⟩
        obtain ⟨r, hfound⟩ := Option.isSome_iff_exists.mp (hpresent key more hstream hmore)
        obtain ⟨r', hfound', bytes, hbytes, hr'⟩ := exists_of_rel_some (hstreams.find? key) hfound
        have hend' : r'.unread = [] := by
          simpa [Reader.expectEnd, Reader.isAtEnd] using
            forM_eq_ok.mp hrun _ (TagMap.mem_of_find? hfound')
        rw [hunread _ (TagMap.mem_of_find? hfound), List.nil_append, hend'] at hr'
        exact hr' ▸ hbytes
    | error e =>
        obtain ⟨p', hp', herror⟩ := forM_eq_error hrun
        obtain ⟨p, hp, hkey, more, hstream, hr'⟩ := exists_left_of_forall₂ hstreams hp'
        rw [hunread p hp, List.nil_append] at hr'
        simp only [Reader.expectEnd, Reader.isAtEnd, Reader.remaining, hr'] at herror
        split at herror
        · simp at herror
        · rename_i hmore
          refine .inr ⟨p.1, more, p'.2.offset, hstream, by simpa using hmore, ?_⟩
          rw [← Except.error.inj herror, hkey]
          rfl

end Module

end SyntaxPack
