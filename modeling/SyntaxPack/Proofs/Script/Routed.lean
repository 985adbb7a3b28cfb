import SyntaxPack.Proofs.RoundTrip.Loaded
import SyntaxPack.Proofs.Script.ReadBack
/-!
# SyntaxPack.Proofs.Script.Routed

Value streams change where tokens stand, and nothing about what is read.

Tokens are written one after another, each under its tag, and read in the same order. With value
streams every token goes to the end of its tag's stream and is read off the front of it, so the
readers find each tag's tokens in the order in which they were written, whatever was written under
other tags between them. What is written is described by `StreamWriter.Placed`, what is still to
be read by `StreamReader.Loaded`; the streams are stored in between (`StreamReader.Loads`).
-/

namespace SyntaxPack

/-! ### Storing streams

What a writer holds is handed to a reader stream by stream. A tag that has a stream already would be
refused; the tags of a writer are ascending, so none occurs twice. -/

namespace StreamReader

variable {r : StreamReader} {map : TagMap Reader} {streams : List (Nat × List UInt8)}

/-- Streams of different tags are all stored, each under its tag. -/
structure Loads (streams : List (Nat × List UInt8)) (r : StreamReader) (map : TagMap Reader) :
    Prop where
  outcomes : (insertAll streams r).1 = streams.map fun _ => .ok ()
  body : (insertAll streams r).2.body = r.body
  stored : ∃ map', (insertAll streams r).2.streams = some map' ∧ map'.Ascending ∧ ∀ key,
    map'.find? key = (map.find? key).or ((TagMap.find? streams key).map .ofBytes)

theorem loads_of_ascending (hmap : r.streams = some map) (hascending : map.Ascending)
    (hstreams : TagMap.Ascending streams) (hnew : ∀ p ∈ streams, map.find? p.1 = none) :
    Loads streams r map := by
  induction streams generalizing r map with
  | nil => exact ⟨rfl, rfl, map, hmap, hascending, fun key => by simp [TagMap.find?]⟩
  | cons stream streams ih =>
      obtain ⟨tag, bytes⟩ := stream
      obtain ⟨hhead, htail⟩ := List.pairwise_cons.mp hstreams
      have hnone : map.find? tag = none := hnew (tag, bytes) List.mem_cons_self
      have hinsert : r.insert tag (.ofBytes bytes) =
          (.ok (), { r with streams := some (map.insert tag (.ofBytes bytes)) }) := by
        simp [StreamReader.insert, hmap, hnone]
      have hrest := ih (r := { r with streams := some (map.insert tag (.ofBytes bytes)) }) rfl
        (hascending.insert tag (.ofBytes bytes)) htail fun p hp => by
          rw [TagMap.find?_insert, if_neg (Nat.ne_of_gt (hhead p hp))]
          exact hnew p (List.mem_cons_of_mem _ hp)
      obtain ⟨map', hmap', hascending', hkeys⟩ := hrest.stored
      refine ⟨?_, ?_, map', ?_, hascending', fun key => ?_⟩
      · simp only [insertAll, hinsert, hrest.outcomes, List.map_cons]
      · simp only [insertAll, hinsert, hrest.body]
      · simp only [insertAll, hinsert, hmap']
      · rw [hkeys, TagMap.find?_insert, TagMap.find?]
        by_cases hkey : key = tag
        · subst hkey
          rw [if_pos rfl, if_pos rfl, hnone, Option.none_or, Option.map_some, Option.some_or]
        · rw [if_neg hkey, if_neg (Ne.symm hkey)]

/-- A reader of what a writer holds has all tokens to be read. -/
theorem loaded_ofWriter {enabled : Bool} {tokens : List Token} {w : StreamWriter}
    (h : StreamWriter.Streamed enabled tokens w)
    (hbody : w.body.toList = Token.sectionBytes enabled tokens) :
    (ofWriter enabled w).1 = w.filled.map (fun _ => .ok ()) ∧
      Loaded enabled tokens [] (ofWriter enabled w).2 := by
  have hstored := h.stored
  cases enabled with
  | false =>
      have hfilled : w.filled = [] := by simp [StreamWriter.filled, h.disabled rfl]
      rw [ofWriter, hfilled]
      exact ⟨rfl, hbody, fun _ => rfl, fun hon => absurd hon Bool.false_ne_true⟩
  | true =>
      have hloads : Loads w.filled { body := .ofBytes w.body.toList, streams := some [] } [] :=
        loads_of_ascending rfl TagMap.ascending_nil hstored.ascending fun _ _ => rfl
      obtain ⟨map, hmap, hascending, hkeys⟩ := hloads.stored
      refine ⟨hloads.outcomes, ?_, fun hoff => absurd hoff.symm Bool.false_ne_true,
        fun _ => ⟨map, hmap, hascending, fun key => ?_⟩⟩
      · exact (congrArg Reader.unread hloads.body).trans hbody
      · rw [hkeys, List.append_nil, ← hstored.find? rfl]
        cases TagMap.find? w.filled key <;> rfl

end StreamReader

/-! ### Reading under a tag

The steps that read a token back run where the tokens of its tag are, and only there. If the token
is the next one there, they take its bytes and leave those of the others. -/

namespace ReaderStack

/-- A token that is next under its tag is replayed, and the tokens behind it are still there. -/
theorem runUnder_of_replays {enabled : Bool} {script : List (Step × Item)} {bytes : List UInt8}
    {tag : Nat} {tokens : List Token} {r : StreamReader} (h : Replays script bytes)
    (hbytes : bytes ≠ []) (hloaded : r.Loaded enabled (⟨some tag, bytes⟩ :: tokens) []) :
    (runUnder (script.map Prod.fst) tag r).1 = script.map (fun p => .ok p.2) ∧
      (runUnder (script.map Prod.fst) tag r).2.Loaded enabled tokens [] := by
  obtain ⟨start, rest, hroute, hadvance⟩ := hloaded.route hbytes
  simp only [runUnder, hroute, h rest start []]
  exact ⟨trivial, hadvance _⟩

end ReaderStack

/-! ### All tokens

Writing sends each token to the end of its place, reading takes it off the front. Both are
inductions on the tokens, and what they share is the description of the places in between. -/

namespace WriteStep

variable {tokens : List (Nat × WriteStep)} {enabled : Bool} {w : StreamWriter} {step : WriteStep}

/-- A token that can be written is put where the tokens of its tag go. -/
theorem runUnder_of_ok {bytes : List UInt8} (h : step.output = .ok bytes) (tag : Nat)
    (w : StreamWriter) : step.runUnder tag w = (.ok (), w.putUnder tag bytes) := by
  rw [runUnder, run_of_ok h, StreamWriter.setUnder_append]

/-- Tokens that can be written, with at least one byte for each. -/
def Routable (tokens : List (Nat × WriteStep)) : Prop :=
  ∀ p ∈ tokens, p.2.Typed ∧ ∃ bytes, p.2.output = .ok bytes ∧ bytes ≠ []

/-- The tokens with the bytes that they are written as. -/
def placed (tokens : List (Nat × WriteStep)) : List Token :=
  tokens.map fun p => ⟨some p.1, p.2.output.toOption.getD []⟩

theorem placed_cons {tag : Nat} {step : WriteStep} {bytes : List UInt8}
    (h : step.output = .ok bytes) (tokens : List (Nat × WriteStep)) :
    placed ((tag, step) :: tokens) = ⟨some tag, bytes⟩ :: placed tokens := by
  rw [placed, List.map_cons, h]
  rfl

/-- All tokens are sent to their places. -/
theorem runAllUnder_eq (h : Routable tokens) (w : StreamWriter) :
    runAllUnder tokens w = (tokens.map fun _ => .ok (), w.putTokens (placed tokens)) := by
  induction tokens generalizing w with
  | nil => rfl
  | cons token tokens ih =>
      obtain ⟨⟨-, bytes, hbytes, -⟩, htokens⟩ := List.forall_mem_cons.mp h
      rw [runAllUnder, runUnder_of_ok hbytes, placed_cons hbytes]
      simp only [ih htokens]
      rfl

/-- Tokens that a reader is loaded with are read in their order, and no byte is left behind. -/
theorem replays_runAllUnder {r : StreamReader} (h : Routable tokens)
    (hloaded : r.Loaded enabled (placed tokens) []) :
    (ReaderStack.runAllUnder (tokens.map fun p => (p.1, p.2.readBack.map Prod.fst)) r).1 =
        tokens.map (fun p => p.2.readBack.map fun q => .ok q.2) ∧
      (ReaderStack.runAllUnder (tokens.map fun p => (p.1, p.2.readBack.map Prod.fst)) r).2.Loaded
        enabled [] [] := by
  induction tokens generalizing r with
  | nil => exact ⟨rfl, hloaded⟩
  | cons token tokens ih =>
      obtain ⟨⟨htyped, bytes, hbytes, hne⟩, htokens⟩ := List.forall_mem_cons.mp h
      rw [placed_cons hbytes] at hloaded
      obtain ⟨hitems, hrest⟩ := ReaderStack.runUnder_of_replays
        (replays_readBack htyped (spliced_of_output hbytes)) hne hloaded
      obtain ⟨hall, hend⟩ := ih htokens hrest
      simp only [List.map_cons, ReaderStack.runAllUnder, hitems, hall]
      exact ⟨trivial, hend⟩

/-- What a writer holds once the tokens are written. -/
def routed (enabled : Bool) (tokens : List (Nat × WriteStep)) : StreamWriter :=
  (runAllUnder tokens (.start enabled)).2

/-- Reading the tokens from what a writer holds once they are written. -/
def rerouted (enabled : Bool) (tokens : List (Nat × WriteStep)) :
    List (List (Except DecodeError Item)) × StreamReader :=
  ReaderStack.runAllUnder (tokens.map fun p => (p.1, p.2.readBack.map Prod.fst))
    (StreamReader.ofWriter enabled (routed enabled tokens)).2

/-- Value streams make no difference to what is read, only to where it stands. -/
structure Transparent (enabled : Bool) (tokens : List (Nat × WriteStep)) : Prop where
  /-- All tokens are written. -/
  written : (runAllUnder tokens (.start enabled)).1 = tokens.map fun _ => .ok ()
  /-- No stream is stored twice. -/
  stored : (StreamReader.ofWriter enabled (routed enabled tokens)).1 =
    (routed enabled tokens).filled.map fun _ => .ok ()
  /-- The steps that read the tokens back, in their order, give the items that were written. -/
  read : (rerouted enabled tokens).1 = tokens.map fun p => p.2.readBack.map fun q => .ok q.2
  /-- Then nothing is left in the streams. -/
  streams_end : (rerouted enabled tokens).2.expectEnd = .ok ()
  /-- Nor is anything left in the section. -/
  section_end : (rerouted enabled tokens).2.body.isAtEnd = true
  /-- Without streams, the section has all tokens in their order. -/
  disabled : enabled = false → (routed enabled tokens).filled = [] ∧
    (routed enabled tokens).body.toList = Token.allBytes (placed tokens)
  /-- With streams, the section stays empty. -/
  section_nil : enabled = true → (routed enabled tokens).body.toList = []
  /-- With streams, each tag that has a token has a stream, with all its tokens in their order. -/
  mem_filled_iff : enabled = true → ∀ tag bytes, (tag, bytes) ∈ (routed enabled tokens).filled ↔
    (∃ step, (tag, step) ∈ tokens) ∧ bytes = Token.streamBytes (placed tokens) tag
  /-- The streams are in the order of their tags. -/
  ascending : (routed enabled tokens).filled.Pairwise (·.1 < ·.1)
  /-- No stream without bytes is stored. -/
  nonempty : ∀ p ∈ (routed enabled tokens).filled, p.2 ≠ []

theorem placed_routed (h : Routable tokens) (enabled : Bool) :
    StreamWriter.Placed enabled [] (placed tokens) (.start enabled) (routed enabled tokens) := by
  rw [routed, runAllUnder_eq h]
  exact StreamWriter.placed_putTokens (StreamWriter.streamed_start enabled) (placed tokens)

/-- A token is in a section only if there are no streams. -/
theorem sectionBytes_placed (enabled : Bool) (tokens : List (Nat × WriteStep)) :
    Token.sectionBytes enabled (placed tokens) =
      if enabled then [] else Token.allBytes (placed tokens) := by
  cases enabled with
  | false => rfl
  | true =>
      refine List.flatMap_eq_nil_iff.mpr fun token htoken => ?_
      obtain ⟨p, -, rfl⟩ := List.mem_map.mp htoken
      rfl

theorem Routable.bytes_ne_nil (h : Routable tokens) : ∀ token ∈ placed tokens, token.bytes ≠ [] := by
  intro token htoken
  obtain ⟨p, hp, rfl⟩ := List.mem_map.mp htoken
  obtain ⟨-, bytes, hbytes, hne⟩ := h p hp
  rwa [hbytes]

/-- Each tag that has a token has a stream with all its tokens. -/
theorem mem_filled_iff (h : Routable tokens) {tag : Nat} {bytes : List UInt8} :
    (tag, bytes) ∈ (routed true tokens).filled ↔
      (∃ step, (tag, step) ∈ tokens) ∧ bytes = Token.streamBytes (placed tokens) tag := by
  have hstored := (placed_routed h true).streamed.stored
  rw [List.nil_append] at hstored
  have htags : tag ∈ (routed true tokens).filled.map (·.1) ↔ ∃ step, (tag, step) ∈ tokens := by
    rw [hstored.mem_tags_iff h.bytes_ne_nil]
    simp [placed]
  constructor
  · intro hmem
    refine ⟨htags.mp (List.mem_map_of_mem hmem), ?_⟩
    rw [← hstored.find? rfl, TagMap.find?_eq_some_of_mem hstored.ascending hmem, Option.getD_some]
  · rintro ⟨hstep, rfl⟩
    obtain ⟨⟨key, stream⟩, hmem, rfl⟩ := List.mem_map.mp (htags.mpr hstep)
    rwa [← hstored.find? rfl, TagMap.find?_eq_some_of_mem hstored.ascending hmem, Option.getD_some]

/-- Tokens with bytes are read back from wherever they are sent. -/
theorem transparent_of_routable (h : Routable tokens) (enabled : Bool) :
    Transparent enabled tokens := by
  have hplaced := placed_routed h enabled
  have hstreamed := hplaced.streamed
  have hbody := hplaced.body
  rw [List.nil_append] at hstreamed
  have hempty : (StreamWriter.start enabled).body.toList = [] := rfl
  rw [hempty, List.nil_append] at hbody
  obtain ⟨hstored, hloaded⟩ := StreamReader.loaded_ofWriter hstreamed hbody
  obtain ⟨hread, hend⟩ := replays_runAllUnder h hloaded
  rw [sectionBytes_placed] at hbody
  exact {
    written := by rw [runAllUnder_eq h]
    stored := hstored
    read := hread
    streams_end := hend.expectEnd
    section_end := by
      have hunread : (rerouted enabled tokens).2.body.unread = [] := hend.body
      rw [Reader.isAtEnd, hunread, List.isEmpty_nil]
    disabled := by
      rintro rfl
      refine ⟨?_, hbody⟩
      simp [StreamWriter.filled, hstreamed.disabled rfl]
    section_nil := by
      rintro rfl
      exact hbody
    mem_filled_iff := by
      rintro rfl tag bytes
      exact mem_filled_iff h
    ascending := hstreamed.stored.ascending
    nonempty := fun p hp => (hstreamed.stored.nonempty p hp).1 }

/-- Tokens of three tags, in turn. -/
def alternatingTokens : List (Nat × WriteStep) :=
  [(4, .reference .varint "strings" (some 299)), (9, .double ⟨0x7ff8000000000001⟩),
    (4, .reference .varint "strings" none), (2, .substream "slots" [.integer .fixed24 (-1), .text "é"]),
    (9, .double ⟨0x8000000000000000⟩), (4, .reference .varint "strings" (some 0))]

/-- Each tag has its tokens in its own stream, or all of them are in the section as they were
written. -/
theorem transparent_alternatingTokens : Routable alternatingTokens ∧
    Transparent true alternatingTokens ∧ Transparent false alternatingTokens ∧
    (routed true alternatingTokens).filled =
      [(2, [7, 0, 0, 0, 0xff, 0xff, 0xff, 0xff, 2, 0xc3, 0xa9, 7, 0, 0, 0]),
        (4, [0xac, 2, 0, 1]),
        (9, [1, 0, 0, 0, 0, 0, 0xf8, 0x7f, 0, 0, 0, 0, 0, 0, 0, 0x80])] ∧
    (routed false alternatingTokens).body.toList =
      [0xac, 2, 1, 0, 0, 0, 0, 0, 0xf8, 0x7f, 0, 7, 0, 0, 0, 0xff, 0xff, 0xff, 0xff, 2, 0xc3, 0xa9,
        7, 0, 0, 0, 0, 0, 0, 0, 0, 0, 0, 0x80, 1] := by
  have hroutable : Routable alternatingTokens := by
    have hbytes : ∀ p ∈ alternatingTokens, ∃ bytes, p.2.output = .ok bytes ∧ bytes ≠ [] := by
      have hany : ∀ p ∈ alternatingTokens, p.2.output.toOption.any (!·.isEmpty) = true := by
        decide +kernel
      intro p hp
      obtain ⟨bytes, hoption, hne⟩ := (Option.any_eq_true _ _).mp (hany p hp)
      exact ⟨bytes, eq_ok_of_toOption hoption, by simpa using hne⟩
    refine fun p hp => ⟨?_, hbytes p hp⟩
    simp only [alternatingTokens, List.mem_cons, List.not_mem_nil, or_false] at hp
    rcases hp with rfl | rfl | rfl | rfl | rfl | rfl
    all_goals simp only [Typed, AllTyped, and_true]
    decide
  exact ⟨hroutable, transparent_of_routable hroutable true, transparent_of_routable hroutable false,
    by decide +kernel, by decide +kernel⟩

end WriteStep

end SyntaxPack
