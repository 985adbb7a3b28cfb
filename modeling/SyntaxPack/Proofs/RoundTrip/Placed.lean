import SyntaxPack.Module.Write
import SyntaxPack.Proofs.Streams
/-!
# SyntaxPack.Proofs.RoundTrip.Placed

Where the tokens of a module go.

What stands in a section and in each stream is a selection of the tokens that were
written, in their order: `sectionBytes` of its own tokens for a section, and `streamBytes`
of the tokens of all sections for a stream. Every byte of a token goes to one place, so
the sections and the streams together hold as many bytes as all tokens.
-/

namespace SyntaxPack

namespace Token

variable {streams : Bool} {token : Token} {tokens : List Token}

/-- The bytes that tokens put into their section. -/
def sectionBytes (streams : Bool) (tokens : List Token) : List UInt8 :=
  tokens.flatMap fun token => if streams && token.stream.isSome then [] else token.bytes

/-- The bytes that tokens put into a stream. -/
def streamBytes (tokens : List Token) (key : Nat) : List UInt8 :=
  tokens.flatMap fun token => if token.stream = some key then token.bytes else []

/-- The bytes of tokens, wherever they go. -/
def allBytes (tokens : List Token) : List UInt8 := tokens.flatMap (·.bytes)

@[simp] theorem sectionBytes_nil : sectionBytes streams [] = [] := rfl

@[simp] theorem streamBytes_nil (key : Nat) : streamBytes [] key = [] := rfl

@[simp] theorem sectionBytes_append (tokens more : List Token) :
    sectionBytes streams (tokens ++ more) = sectionBytes streams tokens ++ sectionBytes streams more :=
  List.flatMap_append

@[simp] theorem streamBytes_append (tokens more : List Token) (key : Nat) :
    streamBytes (tokens ++ more) key = streamBytes tokens key ++ streamBytes more key :=
  List.flatMap_append

@[simp] theorem allBytes_append (tokens more : List Token) :
    allBytes (tokens ++ more) = allBytes tokens ++ allBytes more :=
  List.flatMap_append

theorem sectionBytes_cons : sectionBytes streams (token :: tokens) =
    (if streams && token.stream.isSome then [] else token.bytes) ++ sectionBytes streams tokens :=
  rfl

theorem streamBytes_cons (key : Nat) : streamBytes (token :: tokens) key =
    (if token.stream = some key then token.bytes else []) ++ streamBytes tokens key :=
  rfl

theorem allBytes_cons : allBytes (token :: tokens) = token.bytes ++ allBytes tokens := rfl

/-- Tokens that all have bytes have at least as many bytes as there are tokens. -/
theorem length_le_allBytes (h : ∀ token ∈ tokens, token.bytes ≠ []) :
    tokens.length ≤ (allBytes tokens).length := by
  induction tokens with
  | nil => exact Nat.le_refl 0
  | cons token tokens ih =>
      have htoken := List.length_pos_iff.mpr (h token List.mem_cons_self)
      have := ih fun other hother => h other (List.mem_cons_of_mem token hother)
      rw [allBytes_cons, List.length_append, List.length_cons]
      omega

/-- A stream that holds anything is that of a token. -/
theorem exists_of_streamBytes {key : Nat} (h : streamBytes tokens key ≠ []) :
    ∃ token ∈ tokens, token.stream = some key := by
  induction tokens with
  | nil => exact absurd rfl h
  | cons token tokens ih =>
      by_cases htoken : token.stream = some key
      · exact ⟨token, List.mem_cons_self, htoken⟩
      · rw [streamBytes_cons, if_neg htoken, List.nil_append] at h
        obtain ⟨other, hother, hstream⟩ := ih h
        exact ⟨other, List.mem_cons_of_mem token hother, hstream⟩

end Token

open Token (sectionBytes streamBytes allBytes)

namespace StreamWriter

variable {streams : Bool} {tokens : List Token} {w : StreamWriter}

/-- The number of bytes in the section and in all streams. -/
def held (w : StreamWriter) : Nat := w.body.size + (w.streams.getD []).total Array.size

/-- The streams of a writer that `tokens` were sent through. -/
structure Streamed (streams : Bool) (tokens : List Token) (w : StreamWriter) : Prop where
  disabled : streams = false → w.streams = none
  enabled : streams = true → ∃ map, w.streams = some map ∧ map.Ascending ∧
    ∀ key, ((map.find? key).getD #[]).toList = streamBytes tokens key

theorem streamed_start (streams : Bool) : Streamed streams [] (.start streams) := by
  refine ⟨fun h => by simp [start, h], fun h => ⟨[], by simp [start, h], TagMap.ascending_nil, ?_⟩⟩
  intro key
  rfl

/-- What sending tokens to their places does. -/
structure Placed (streams : Bool) (before tokens : List Token) (w w' : StreamWriter) : Prop where
  streamed : Streamed streams (before ++ tokens) w'
  body : w'.body.toList = w.body.toList ++ sectionBytes streams tokens
  held : w'.held = w.held + (allBytes tokens).length

theorem Placed.trans {before more : List Token} {w' w'' : StreamWriter}
    (h : Placed streams before tokens w w') (h' : Placed streams (before ++ tokens) more w' w'') :
    Placed streams before (tokens ++ more) w w'' where
  streamed := by
    have hstreamed := h'.streamed
    rwa [List.append_assoc] at hstreamed
  body := by rw [h'.body, h.body, Token.sectionBytes_append, List.append_assoc]
  held := by
    rw [h'.held, h.held, Token.allBytes_append, List.length_append]
    omega

theorem size_append_list (bytes : Array UInt8) (more : List UInt8) :
    (bytes ++ more).size = bytes.size + more.length := by
  rw [← Array.length_toList, Array.toList_appendList, List.length_append, Array.length_toList]

theorem placed_put {before : List Token} (h : Streamed streams before w) (bytes : List UInt8) :
    Placed streams before [⟨none, bytes⟩] w (w.put bytes) := by
  refine ⟨⟨h.disabled, fun hon => ?_⟩, ?_, ?_⟩
  · obtain ⟨map, hmap, hascending, hkeys⟩ := h.enabled hon
    refine ⟨map, hmap, hascending, fun key => ?_⟩
    rw [hkeys, Token.streamBytes_append]
    simp [streamBytes]
  · simp [put, sectionBytes]
  · have hsize : (w.body ++ bytes).size = w.body.size + bytes.length :=
      size_append_list w.body bytes
    simp only [held, put, allBytes, List.flatMap_cons, List.flatMap_nil, List.append_nil, hsize]
    omega

/-- A token of a stream takes its bytes to the end of the stream, or of the section if
there are no streams. -/
theorem placed_putUnder {before : List Token} (h : Streamed streams before w) (tag : Nat)
    (bytes : List UInt8) : Placed streams before [⟨some tag, bytes⟩] w (w.putUnder tag bytes) := by
  cases streams with
  | false =>
      have hnone := h.disabled rfl
      have hput : w.putUnder tag bytes = w.put bytes := by rw [putUnder, hnone]
      rw [hput]
      refine ⟨⟨fun _ => hnone, fun hon => absurd hon Bool.false_ne_true⟩, ?_, ?_⟩
      · simp [put, sectionBytes]
      · exact (placed_put h bytes).held
  | true =>
      obtain ⟨map, hmap, hascending, hkeys⟩ := h.enabled rfl
      have hput : w.putUnder tag bytes =
          { w with streams := some (map.insert tag ((map.find? tag).getD #[] ++ bytes)) } := by
        rw [putUnder, hmap]
      rw [hput]
      refine ⟨⟨fun hoff => absurd hoff.symm Bool.false_ne_true, fun _ =>
        ⟨_, rfl, hascending.insert _ _, fun key => ?_⟩⟩, ?_, ?_⟩
      · rw [TagMap.find?_insert, Token.streamBytes_append, ← hkeys]
        by_cases hkey : key = tag
        · subst hkey
          simp [streamBytes]
        · simp [streamBytes, hkey, Ne.symm hkey]
      · simp [sectionBytes]
      · have htotal := TagMap.total_insert Array.size hascending tag
          ((map.find? tag).getD #[] ++ bytes)
        have hold : ((map.find? tag).map Array.size).getD 0 = ((map.find? tag).getD #[]).size := by
          cases map.find? tag <;> rfl
        rw [hold] at htotal
        have hsize : ((map.find? tag).getD #[] ++ bytes).size =
            ((map.find? tag).getD #[]).size + bytes.length := size_append_list _ bytes
        simp only [held, hmap, Option.getD_some, allBytes, List.flatMap_cons, List.flatMap_nil,
          List.append_nil]
        omega

theorem placed_putTokens {before : List Token} (h : Streamed streams before w) (tokens : List Token) :
    Placed streams before tokens w (w.putTokens tokens) := by
  induction tokens generalizing before w with
  | nil =>
      refine ⟨by rwa [List.append_nil], ?_, rfl⟩
      rw [Token.sectionBytes_nil, List.append_nil]
      rfl
  | cons token tokens ih =>
      obtain ⟨stream, bytes⟩ := token
      have hone : Placed streams before [⟨stream, bytes⟩] w
          (w.putTokens [⟨stream, bytes⟩]) := by
        cases stream with
        | none => exact placed_put h bytes
        | some tag => exact placed_putUnder h tag bytes
      exact hone.trans (ih hone.streamed)

/-! ### Filled streams -/

variable {map : TagMap (Array UInt8)}

/-- Leaving out the streams without bytes leaves out no byte. -/
theorem sum_filled (w : StreamWriter) :
    (w.filled.map fun p => p.2.length).sum = (w.streams.getD []).total Array.size := by
  have hlist : ∀ map : TagMap (Array UInt8),
      (((map.map fun p => (p.1, p.2.toList)).filter (!·.2.isEmpty)).map fun p => p.2.length).sum =
        map.total Array.size := by
    intro map
    induction map with
    | nil => rfl
    | cons p map ih =>
        obtain ⟨key, bytes⟩ := p
        rw [TagMap.total_cons, List.map_cons, List.filter_cons]
        split
        · rw [List.map_cons, List.sum_cons, ih, Array.length_toList]
        · rename_i hempty
          have hsize : bytes.size = 0 := by simpa using hempty
          rw [ih, hsize, Nat.zero_add]
  exact hlist _

/-- The streams that are stored: in the order of their tags, each with bytes. -/
structure Stored (streams : Bool) (tokens : List Token) (filled : TagMap (List UInt8)) : Prop where
  ascending : filled.Ascending
  find? : streams = true → ∀ key, (TagMap.find? filled key).getD [] = streamBytes tokens key
  nonempty : ∀ p ∈ filled, p.2 ≠ [] ∧ ∃ token ∈ tokens, token.stream = some p.1

theorem find?_filter {map : TagMap (Array UInt8)} (h : map.Ascending) (key : Nat) :
    (TagMap.find? ((map.map fun p => (p.1, p.2.toList)).filter (!·.2.isEmpty)) key).getD [] =
      ((map.find? key).getD #[]).toList := by
  induction map with
  | nil => rfl
  | cons p map ih =>
      obtain ⟨tag, bytes⟩ := p
      obtain ⟨hhead, htail⟩ := List.pairwise_cons.mp h
      rw [List.map_cons, List.filter_cons]
      by_cases hkey : tag = key
      · subst hkey
        split
        · simp [TagMap.find?]
        · rename_i hempty
          have hbytes : bytes.toList = [] := by simpa using hempty
          have hnone : TagMap.find? map tag = none := TagMap.find?_eq_none hhead
          rw [ih htail, hnone]
          simp [TagMap.find?, hbytes]
      · split
        · simp only [TagMap.find?, if_neg hkey]
          exact ih htail
        · simp only [TagMap.find?, if_neg hkey]
          exact ih htail

theorem Streamed.stored (h : Streamed streams tokens w) : Stored streams tokens w.filled := by
  cases streams with
  | false =>
      have hnone : w.filled = [] := by simp [filled, h.disabled rfl]
      rw [hnone]
      exact ⟨TagMap.ascending_nil, fun hon => absurd hon Bool.false_ne_true, by simp⟩
  | true =>
      obtain ⟨map, hmap, hascending, hkeys⟩ := h.enabled rfl
      have hfilled : w.filled = (map.map fun p => (p.1, p.2.toList)).filter (!·.2.isEmpty) := by
        rw [filled, hmap]
        rfl
      have hfind : ∀ key, (TagMap.find? w.filled key).getD [] = streamBytes tokens key := fun key => by
        rw [hfilled, find?_filter hascending, hkeys]
      have hsorted : w.filled.Pairwise (·.1 < ·.1) := by
        rw [hfilled]
        have hpairs : (map.map fun p => (p.1, p.2.toList)).Pairwise (·.1 < ·.1) :=
          List.pairwise_map.mpr hascending
        exact hpairs.filter _
      refine ⟨hsorted, fun _ => hfind, fun p hp => ?_⟩
      have hbytes : p.2 ≠ [] := by
        rw [hfilled] at hp
        simpa using (List.mem_filter.mp hp).2
      refine ⟨hbytes, Token.exists_of_streamBytes ?_⟩
      rw [← hfind, TagMap.find?_eq_some_of_mem hsorted hp]
      exact hbytes

/-- If no token is without bytes, the streams that are stored are those of the tokens. -/
theorem Stored.mem_tags_iff {filled : TagMap (List UInt8)} (h : Stored true tokens filled)
    (hbytes : ∀ token ∈ tokens, token.bytes ≠ []) {key : Nat} :
    key ∈ filled.map (·.1) ↔ some key ∈ tokens.map (·.stream) := by
  simp only [List.mem_map]
  constructor
  · rintro ⟨p, hp, rfl⟩
    exact (h.nonempty p hp).2
  · rintro ⟨token, htoken, hstream⟩
    have hne : streamBytes tokens key ≠ [] := fun hnil =>
      hbytes token htoken (by simpa [hstream] using List.flatMap_eq_nil_iff.mp hnil token htoken)
    rw [← h.find? rfl] at hne
    cases hfind : TagMap.find? filled key with
    | none => simp [hfind] at hne
    | some bytes => exact ⟨_, TagMap.mem_of_find? hfind, rfl⟩

theorem Stored.nodup_tags {filled : TagMap (List UInt8)} (h : Stored streams tokens filled) :
    (filled.map (·.1)).Nodup :=
  (List.pairwise_map.mpr h.ascending).imp Nat.ne_of_lt

/-- A writer between two sections, after sections of `size` bytes have been taken out. -/
structure Sent (streams : Bool) (before tokens : List Token) (w : StreamWriter) (size : Nat)
    (w' : StreamWriter) : Prop where
  streamed : Streamed streams (before ++ tokens) w'
  body : w'.body = #[]
  held : size + w'.held = w.held + (allBytes tokens).length

end StreamWriter

namespace Module.WriteInput

open StreamWriter (Streamed Sent)

variable {streams : Bool} {before tokens : List Token} {w : StreamWriter}

theorem place_eq (h : Streamed streams before w) (hbody : w.body = #[]) (tokens : List Token) :
    ∃ w', place w tokens = (sectionBytes streams tokens, w') ∧
      Sent streams before tokens w (sectionBytes streams tokens).length w' := by
  have hplaced := StreamWriter.placed_putTokens h tokens
  have hcontent : (w.putTokens tokens).body.toList = sectionBytes streams tokens := by
    rw [hplaced.body, hbody]
    rfl
  refine ⟨{ w.putTokens tokens with body := #[] }, ?_, ⟨?_, rfl, ?_⟩⟩
  · show ((w.putTokens tokens).body.toList, _) = _
    rw [hcontent]
  · exact ⟨hplaced.streamed.disabled, hplaced.streamed.enabled⟩
  · have hheld := hplaced.held
    have hsize : (w.putTokens tokens).body.size = (sectionBytes streams tokens).length := by
      rw [← hcontent, Array.length_toList]
    simp only [StreamWriter.held] at hheld ⊢
    simp only [hsize] at hheld
    simpa using hheld

theorem placeAll_eq (h : Streamed streams before w) (hbody : w.body = #[])
    (sections : List (List Token)) :
    ∃ w', placeAll w sections = (sections.map (sectionBytes streams), w') ∧
      Sent streams before sections.flatten w
        (sections.map fun tokens => (sectionBytes streams tokens).length).sum w' := by
  induction sections generalizing before w with
  | nil =>
      refine ⟨w, rfl, ?_, hbody, ?_⟩
      · rwa [List.flatten_nil, List.append_nil]
      · rw [List.flatten_nil]
        exact Nat.zero_add _
  | cons tokens sections ih =>
      obtain ⟨v, hplace, hv⟩ := place_eq h hbody tokens
      obtain ⟨w', hall, hw'⟩ := ih hv.streamed hv.body
      refine ⟨w', by simp only [placeAll, hplace, hall, List.map_cons], ?_, hw'.body, ?_⟩
      · have hstreamed := hw'.streamed
        rwa [List.append_assoc] at hstreamed
      · have hfirst := hv.held
        have hrest := hw'.held
        rw [List.map_cons, List.sum_cons, List.flatten_cons, Token.allBytes_append, List.length_append]
        omega

end Module.WriteInput

end SyntaxPack
