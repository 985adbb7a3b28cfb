import SyntaxPack.Bytes.Script
import SyntaxPack.Proofs.Local
/-!
# SyntaxPack.Proofs.Script.Windows

Where the readers of a script stand.

Every read leaves its reader further on and within its bytes, whether it fails or not
(`Read.Advances`), and one that reads a single item does not move it when it fails
(`Read.Stays`). So a reader keeps to a window of the input, and what it has not read is the input
from its offset to the end of the window. The windows of a stack of readers lie within one another,
and each is a substream that the reader around it has read past (`Nested`).

A reader holds its own bytes and an offset, and nothing in it says that the bytes are those of the
input at that offset. That they are is what `Reader.Within` says, and it is kept because reading
only ever drops bytes from the front and adds their number to the offset (`Reader.skip`).

What happens on failure is stated of the state that the reader is left in, not of the result:

* A fixed-width item or a base-128 number leaves the reader where it was.
* A text is not one item but a length and bytes, and it fails in three ways, each with its own place
  to stop (`TextFault`).
* A substream may stop behind its length or behind its body, but never outside its window.
-/

namespace SyntaxPack

namespace Read

variable {α β : Type}

/-- A failing run leaves the reader where it was, so that the item can be tried again in another
way. -/
def Stays (read : Read α) : Prop :=
  ∀ (r : Reader) (e : DecodeError) (r' : Reader), read r = .error e r' → r' = r

/-- A run leaves the reader further on and within its bytes, whatever comes of it. This is weaker
than staying on failure, and unlike that it is kept by sequences of reads. -/
structure Advances (read : Read α) : Prop where
  ok : ∀ (r : Reader) (a : α) (r' : Reader), read r = .ok a r' → ∃ k ≤ r.remaining, r' = r.skip k
  error : ∀ (r : Reader) (e : DecodeError) (r' : Reader),
    read r = .error e r' → ∃ k ≤ r.remaining, r' = r.skip k

/-! ### Combinators

`Advances` is closed under everything that reads are made of. `Stays` is not: after a first read
that moved the reader, a second one must not fail. -/

theorem stays_pure (a : α) : Stays (pure a : Read α) := by
  intro r e r' h
  cases h

theorem stays_fail (error : DecodeError) : Stays (fail error : Read α) := by
  intro r e r' h
  cases h
  rfl

/-- What follows a read does not move the reader back, so it must not fail. -/
theorem Stays.bind {read : Read α} {next : α → Read β} (h : read.Stays)
    (hn : ∀ a r, ∃ b, next a r = .ok b r) : (read >>= next).Stays := by
  intro r e r' hr
  rcases run_bind_eq_error.mp hr with hread | ⟨a, t, -, hnext⟩
  · exact h r e r' hread
  · obtain ⟨b, hb⟩ := hn a t
    rw [hb] at hnext
    cases hnext

theorem Stays.map {read : Read α} (h : read.Stays) (f : α → β) : Stays (do return f (← read)) :=
  h.bind fun a _ => ⟨f a, rfl⟩

theorem Consumes.advances {read : Read α} {n : Nat} (h : read.Consumes n) (hs : read.Stays) :
    read.Advances where
  ok r a r' hr := by
    obtain ⟨k, -, hk, rfl⟩ := h r a r' hr
    exact ⟨k, hk, rfl⟩
  error r e r' hr := ⟨0, Nat.zero_le _, hs r e r' hr ▸ r.skip_zero.symm⟩

theorem advances_pure (a : α) : Advances (pure a : Read α) :=
  (consumes_pure a).advances (stays_pure a)

theorem advances_fail (error : DecodeError) : Advances (fail error : Read α) :=
  (consumes_fail error 0).advances (stays_fail error)

theorem Advances.bind {read : Read α} {next : α → Read β} (hr : read.Advances)
    (hn : ∀ a, (next a).Advances) : (read >>= next).Advances := by
  -- What two steps skip is skipped at once.
  have hskip : ∀ {r r' : Reader} {j : Nat}, j ≤ r.remaining →
      (∃ k ≤ (r.skip j).remaining, r' = (r.skip j).skip k) → ∃ k ≤ r.remaining, r' = r.skip k := by
    rintro r r' j hj ⟨k, hk, rfl⟩
    rw [Reader.remaining_skip] at hk
    exact ⟨j + k, by omega, Reader.skip_skip r j k⟩
  constructor
  · intro r b r' h
    obtain ⟨a, t, hread, hnext⟩ := run_bind_eq_ok.mp h
    obtain ⟨j, hj, rfl⟩ := hr.ok r a t hread
    exact hskip hj ((hn a).ok _ b r' hnext)
  · intro r e r' h
    rcases run_bind_eq_error.mp h with h | ⟨a, t, hread, h⟩
    · exact hr.error r e r' h
    · obtain ⟨j, hj, rfl⟩ := hr.ok r a t hread
      exact hskip hj ((hn a).error _ e r' h)

theorem Advances.map {read : Read α} (h : read.Advances) (f : α → β) :
    Advances (do return f (← read)) :=
  h.bind fun a => advances_pure (f a)

theorem advances_offset : Advances offset :=
  consumes_offset.advances fun r e r' h => by cases h

theorem advances_get : Advances (get : Read Reader) :=
  consumes_get.advances fun r e r' h => by cases h

/-! ### Items

A base-128 number counts as one item because its reader takes all groups at once or none. -/

theorem stays_bytes (n : Nat) : Stays (bytes n) :=
  fun _ _ _ h => (bytes_eq_error_iff.mp h).2.2

theorem stays_fixed (width : Nat) : Stays (fixed width) := (stays_bytes width).map _

theorem stays_byte : Stays byte := (stays_fixed 1).map _

theorem stays_int32 : Stays int32 := (stays_fixed 4).map _

theorem stays_double : Stays double := (stays_fixed 8).map _

theorem stays_varint {read : List UInt8 → Except Varint.Fault (α × List UInt8)} :
    Stays (varint read) := by
  intro r e r' h
  obtain ⟨_, -, -, hr⟩ := varint_eq_error_iff.mp h
  exact hr

theorem stays_unsigned : Stays unsigned := stays_varint

theorem stays_signed : Stays signed := stays_varint

theorem advances_bytes (n : Nat) : Advances (bytes n) := (consumes_bytes n).advances (stays_bytes n)

theorem advances_fixed (width : Nat) : Advances (fixed width) := (advances_bytes width).map _

theorem advances_int32 : Advances int32 := (advances_fixed 4).map _

theorem advances_unsigned : Advances unsigned := consumes_unsigned.advances stays_unsigned

theorem advances_signed : Advances signed := consumes_signed.advances stays_signed

/-- A text may fail behind its length, or behind bytes that are not UTF-8. -/
theorem advances_text : Advances text := by
  refine advances_unsigned.bind fun length => advances_offset.bind fun start =>
    (advances_bytes length).bind fun bytes => ?_
  split
  · exact advances_pure _
  · exact advances_fail _

/-- A substream may fail behind its length, its body or its footer. -/
theorem advances_substream : Advances substream := by
  refine advances_offset.bind fun start => (advances_fixed 4).bind fun header =>
    advances_offset.bind fun origin => (advances_bytes header).bind fun body =>
    (advances_fixed 4).bind fun footer => ?_
  split
  · exact (advances_fail _).bind fun _ => advances_pure _
  · exact advances_pure _

end Read

namespace IndexEncoding

open Read

theorem advances_readToken (e : IndexEncoding) : e.readToken.Advances := by
  cases e with
  | varint =>
      refine advances_offset.bind fun start => advances_unsigned.bind fun value => ?_
      split
      · exact (advances_fail _).bind fun _ => advances_pure _
      · exact advances_pure _
  | fixed32 => exact advances_fixed 4
  | fixed24 => exact advances_fixed 3

theorem advances_readReference (e : IndexEncoding) : e.readReference.Advances := by
  refine e.advances_readToken.bind fun token => ?_
  split
  · exact advances_pure _
  · exact advances_pure _

theorem advances_readInteger (e : IndexEncoding) : e.readInteger.Advances := by
  cases e with
  | varint =>
      refine advances_offset.bind fun start => advances_signed.bind fun value => ?_
      split
      · exact advances_pure _
      · exact (advances_fail _).bind fun _ => advances_pure _
  | fixed32 => exact advances_int32
  | fixed24 => exact advances_int32

end IndexEncoding

namespace ReadStep

open Read

/-- A step that reads a fixed number of bytes, as many bytes as it is told, or a base-128 number. An
index that is a base-128 number is not one, for it may be read and then be found too large. -/
def IsSingle : ReadStep → Prop
  | byte | bytes _ | nat24 | nat32 | int32 | double | unsigned | signed => True
  | index e | reference e | integer e => e ≠ .varint
  | text | expectEnd _ | isAtEnd => False

theorem advances_read (step : ReadStep) : step.read.Advances := by
  cases step with
  | byte => exact ((advances_fixed 1).map _).map _
  | bytes count => exact (advances_bytes count).map _
  | nat24 => exact (advances_fixed 3).map _
  | nat32 => exact (advances_fixed 4).map _
  | int32 => exact advances_int32.map _
  | double => exact ((advances_fixed 8).map _).map _
  | unsigned => exact advances_unsigned.map _
  | signed => exact advances_signed.map _
  | text => exact advances_text.map _
  | index e => exact e.advances_readToken.map _
  | reference e => exact e.advances_readReference.map _
  | integer e => exact e.advances_readInteger.map _
  | isAtEnd => exact advances_get.map _
  | expectEnd label =>
      refine advances_get.bind fun r => ?_
      split
      · exact advances_pure _
      · exact advances_fail _

theorem IsSingle.stays {step : ReadStep} (h : step.IsSingle) : step.read.Stays := by
  cases step with
  | byte => exact stays_byte.map _
  | bytes count => exact (stays_bytes count).map _
  | nat24 => exact (stays_fixed 3).map _
  | nat32 => exact (stays_fixed 4).map _
  | int32 => exact stays_int32.map _
  | double => exact stays_double.map _
  | unsigned => exact stays_unsigned.map _
  | signed => exact stays_signed.map _
  | index e =>
      cases e with
      | varint => exact absurd rfl h
      | fixed32 => exact (stays_fixed 4).map _
      | fixed24 => exact (stays_fixed 3).map _
  | reference e =>
      -- With fixed widths a reference is a token and an arithmetic step that cannot fail.
      refine Stays.map (Stays.bind ?_ fun token r => ?_) _
      · cases e with
        | varint => exact absurd rfl h
        | fixed32 => exact stays_fixed 4
        | fixed24 => exact stays_fixed 3
      · cases token with
        | zero => exact ⟨none, rfl⟩
        | succ i => exact ⟨some i, rfl⟩
  | integer e =>
      cases e with
      | varint => exact absurd rfl h
      | fixed32 => exact stays_int32.map _
      | fixed24 => exact stays_int32.map _
  | text | expectEnd | isAtEnd => exact h.elim

end ReadStep

/-! ### Texts

The three ways in which a text fails, each with the error and the place where the reader stops.
Together with the text that is read they are all that can happen (`text_cases`). -/

namespace Read

variable {r r' : Reader} {error : DecodeError}

/-- How reading a text fails, and where that leaves the reader. -/
inductive TextFault (r : Reader) : DecodeError → Reader → Prop
  /-- The length cannot be read. Nothing has been. -/
  | length {fault : Varint.Fault} (unreadable : Varint.readUnsigned r.unread = .error fault) :
    TextFault r (varintError r fault) r
  /-- There are fewer bytes than the length says. It has been read. -/
  | short {front rest : List UInt8} {n : Nat} (unread_eq : r.unread = front ++ rest)
    (readable : Varint.readUnsigned r.unread = .ok (n, rest)) (too_few : rest.length < n) :
    TextFault r (.unexpectedEnd (r.offset + front.length) n rest.length)
      ⟨rest, r.offset + front.length⟩
  /-- The bytes are no text. They have been read, and the length in front of them. -/
  | malformed {front bytes rest : List UInt8} {fault : Utf8.Fault}
    (unread_eq : r.unread = front ++ (bytes ++ rest))
    (readable : Varint.readUnsigned r.unread = .ok (bytes.length, bytes ++ rest))
    (undecodable : Utf8.decode bytes = .error fault) :
    TextFault r (.invalidUtf8 (r.offset + front.length + fault.validUpTo) fault)
      ⟨rest, r.offset + front.length + bytes.length⟩

theorem unsigned_of_error {fault : Varint.Fault} (h : Varint.readUnsigned r.unread = .error fault) :
    unsigned r = .error (varintError r fault) r :=
  varint_eq_error_iff.mpr ⟨fault, h, rfl, rfl⟩

/-- A length that can be read is read as the function on bytes says, and the reader stands behind
the bytes that it took. -/
theorem unsigned_of_ok {n : Nat} {front rest : List UInt8} (hr : r.unread = front ++ rest)
    (h : Varint.readUnsigned r.unread = .ok (n, rest)) :
    unsigned r = .ok n ⟨rest, r.offset + front.length⟩ := by
  -- The reader counts groups, the function on bytes returns a rest; both give the same offset.
  have hcount : Varint.groupCount r.unread = front.length := by
    obtain ⟨hle, hdrop⟩ := Varint.readUnsigned_rest h
    have hrest := congrArg List.length hdrop
    have hlength := congrArg List.length hr
    rw [List.length_drop] at hrest
    rw [List.length_append] at hlength
    omega
  exact varint_eq_ok_iff.mpr ⟨rest, h, by rw [hcount]⟩

/-- Every fault is one that reading comes to. -/
theorem TextFault.text_eq (h : TextFault r error r') : text r = .error error r' := by
  cases h with
  | length hlength => rw [text, run_bind_of_error (unsigned_of_error hlength)]
  | short hr hlength hshort =>
      rw [text, run_bind_of_ok (unsigned_of_ok hr hlength), run_bind_of_ok run_offset,
        run_bind_of_error (bytes_eq_error_iff.mpr ⟨hshort, rfl, rfl⟩)]
      rfl
  | malformed hr hlength hdecode =>
      rw [text, run_bind_of_ok (unsigned_of_ok hr hlength), run_bind_of_ok run_offset,
        run_bind_of_ok (takes_bytes _ _ _)]
      simp only [hdecode, run_fail]

/-- A text is read, or there is a fault. The cases are taken in the order in which the reader looks:
at the length, at the number of bytes left, at the bytes themselves. -/
theorem text_cases (r : Reader) :
    (∃ s r', text r = .ok s r') ∨ ∃ error r', TextFault r error r' := by
  cases hlength : Varint.readUnsigned r.unread with
  | error fault => exact Or.inr ⟨_, _, .length hlength⟩
  | ok result =>
      obtain ⟨n, rest⟩ := result
      obtain ⟨front, hr, -⟩ := Varint.readUnsigned_local hlength
      rcases Nat.lt_or_ge rest.length n with hshort | hlong
      · exact Or.inr ⟨_, _, .short hr hlength hshort⟩
      · obtain ⟨bs, tail, rfl, rfl⟩ : ∃ bs tail, rest = bs ++ tail ∧ bs.length = n :=
          ⟨rest.take n, rest.drop n, (List.take_append_drop n rest).symm,
            List.length_take_of_le hlong⟩
        cases hdecode : Utf8.decode bs with
        | error fault => exact Or.inr ⟨_, _, .malformed hr hlength hdecode⟩
        | ok s =>
            refine Or.inl ⟨s, ⟨tail, r.offset + front.length + bs.length⟩, ?_⟩
            rw [text, run_bind_of_ok (unsigned_of_ok hr hlength), run_bind_of_ok run_offset,
              run_bind_of_ok (takes_bytes _ _ _)]
            simp only [hdecode, run_pure]

/-- Reading a text fails in just the ways that `TextFault` lists, each with its error and its place.
-/
theorem text_eq_error_iff : text r = .error error r' ↔ TextFault r error r' := by
  refine ⟨fun hrun => ?_, TextFault.text_eq⟩
  rcases text_cases r with ⟨s, t, hok⟩ | ⟨e, t, hfault⟩
  · rw [hok] at hrun
    cases hrun
  · rw [hfault.text_eq] at hrun
    cases hrun
    exact hfault

end Read

/-! ### Windows

Positions are those of the whole input, so windows of different readers can be compared. A window is
`Framed` where the bytes of the input show it to be a substream. -/

namespace Read

/-- A substream starts behind its length, and what follows it behind its other length. -/
theorem offset_of_substream {r r' body : Reader} (h : substream r = .ok body r') :
    body.offset = r.offset + 4 ∧ r'.offset = body.offset + body.remaining + 4 := by
  obtain ⟨hlt, hunread⟩ := unread_of_substream h
  have hframed := (@Bytes.framed_eq_ok_iff "" body.unread _).mpr ⟨hlt, rfl⟩
  have hrun := run_substream hframed r'.unread r.offset
  rw [← hunread, h] at hrun
  obtain ⟨hbody, hrest⟩ := EStateM.Result.ok.inj hrun
  have hstart : body.offset = r.offset + 4 := congrArg Reader.offset hbody
  have hstop := congrArg Reader.offset hrest
  simp only [List.length_append, Bytes.length_fixed] at hstop
  simp only [Reader.remaining]
  omega

end Read

/-- A part of an input, from one position to another, the second not included. -/
structure Window where
  /-- Where it starts. -/
  start : Nat
  /-- Where it ends. -/
  stop : Nat
  deriving DecidableEq, Repr

/-- A window is a substream of the input: it stands between two copies of its length. -/
def Window.Framed (w : Window) (input : List UInt8) : Prop :=
  ∃ before body after,
    input = before ++ (Bytes.fixed 4 body.length ++ body ++ Bytes.fixed 4 body.length) ++ after ∧
      body.length < UInt32.size ∧ w = ⟨before.length + 4, before.length + 4 + body.length⟩

namespace Reader

variable {input : List UInt8} {r r' body : Reader} {w : Window} {k : Nat}

/-- A reader in a window has not read what stands between its offset and the end of the window. -/
structure Within (r : Reader) (input : List UInt8) (w : Window) : Prop where
  /-- It does not stand in front of the window. -/
  start_le : w.start ≤ r.offset
  /-- It ends where the window does. -/
  stop_eq : r.offset + r.remaining = w.stop
  /-- That is within the input. -/
  stop_le : w.stop ≤ input.length
  /-- Its bytes are those of the input from its offset on. -/
  unread_eq : r.unread = (input.drop r.offset).take r.remaining

/-- The whole input is a window of itself. -/
theorem within_ofBytes (input : List UInt8) : (ofBytes input).Within input ⟨0, input.length⟩ where
  start_le := Nat.le_refl 0
  stop_eq := Nat.zero_add _
  stop_le := Nat.le_refl _
  unread_eq := by simp [ofBytes, remaining]

/-- Skipping bytes that are there keeps a reader in its window. -/
theorem Within.skip (h : r.Within input w) (hk : k ≤ r.remaining) : (r.skip k).Within input w where
  start_le := Nat.le_trans h.start_le (Nat.le_add_right _ _)
  stop_eq := by
    have := h.stop_eq
    rw [remaining_skip]
    show r.offset + k + (r.remaining - k) = w.stop
    omega
  stop_le := h.stop_le
  unread_eq := by
    rw [remaining_skip]
    show r.unread.drop k = (input.drop (r.offset + k)).take (r.remaining - k)
    rw [h.unread_eq, List.drop_take, List.drop_drop]

/-- What a reader has not read, and all that follows its window. -/
theorem Within.drop_eq (h : r.Within input w) :
    input.drop r.offset = r.unread ++ input.drop w.stop := by
  rw [h.unread_eq, ← h.stop_eq, ← List.drop_drop, List.take_append_drop]

/-- The input around what a reader has not read. -/
theorem Within.input_eq (h : r.Within input w) :
    input = input.take r.offset ++ r.unread ++ input.drop w.stop := by
  rw [List.append_assoc, ← h.drop_eq, List.take_append_drop]

theorem within_of_input_eq {before after : List UInt8} (hinput : input = before ++ r.unread ++ after)
    (hoffset : r.offset = before.length) : r.Within input ⟨r.offset, r.offset + r.remaining⟩ where
  start_le := Nat.le_refl _
  stop_eq := rfl
  stop_le := by
    have := congrArg List.length hinput
    rw [List.length_append, List.length_append] at this
    show r.offset + r.unread.length ≤ input.length
    omega
  unread_eq := by
    rw [hinput, hoffset, List.append_assoc, List.drop_left, remaining, List.take_left]

/-- A substream is a window of the input, and the reader goes on behind it. Between the two windows
there are the four bytes of each of the two lengths. -/
theorem Within.substream (h : r.Within input w) (hrun : Read.substream r = .ok body r') :
    r'.Within input w ∧ body.Within input ⟨body.offset, body.offset + body.remaining⟩ ∧
      Window.Framed ⟨body.offset, body.offset + body.remaining⟩ input ∧
      w.start + 4 ≤ body.offset ∧ body.offset + body.remaining + 4 ≤ r'.offset := by
  obtain ⟨k, hk, hskip⟩ := Read.advances_substream.ok r body r' hrun
  obtain ⟨hlt, hunread⟩ := Read.unread_of_substream hrun
  obtain ⟨hbody, hoffset⟩ := Read.offset_of_substream hrun
  -- The bytes in front of the reader are as many as its offset says.
  have hlength : (input.take r.offset).length = r.offset :=
    List.length_take_of_le (Nat.le_trans (Nat.le_trans (Nat.le_add_right _ _) (Nat.le_of_eq h.stop_eq))
      h.stop_le)
  have hinput := h.input_eq
  rw [hunread] at hinput
  have hstart := h.start_le
  refine ⟨hskip ▸ h.skip hk, ?_, ⟨input.take r.offset, body.unread, r'.unread ++ input.drop w.stop,
    by simpa only [List.append_assoc] using hinput, hlt, ?_⟩, by omega, by omega⟩
  · have hbefore : body.offset = (input.take r.offset ++ Bytes.fixed 4 body.unread.length).length := by
      rw [List.length_append, hlength, Bytes.length_fixed, hbody]
    have hparts : input = (input.take r.offset ++ Bytes.fixed 4 body.unread.length) ++ body.unread ++
        (Bytes.fixed 4 body.unread.length ++ r'.unread ++ input.drop w.stop) := by
      simpa only [List.append_assoc] using hinput
    exact within_of_input_eq hparts hbefore
  · rw [hlength, hbody]
    rfl

end Reader

namespace ReaderStack

variable {input : List UInt8} {stack : ReaderStack} {windows : List Window}

/-- The windows of a stack of readers, the innermost first. A reader that was entered has a
substream for its window, which the reader around it has read past. So the reader around is never
inside the window, and leaving it early cannot lead back. -/
inductive Nested (input : List UInt8) : ReaderStack → List Window → Prop
  | outermost {r : Reader} (within : r.Within input ⟨0, input.length⟩) :
    Nested input ⟨r, []⟩ [⟨0, input.length⟩]
  | entered {r parent : Reader} {outer : List Reader} {w v : Window} {windows : List Window}
    (around : Nested input ⟨parent, outer⟩ (v :: windows)) (within : r.Within input w)
    (framed : w.Framed input) (start_le : v.start + 4 ≤ w.start)
    (stop_le : w.stop + 4 ≤ parent.offset) :
    Nested input ⟨r, parent :: outer⟩ (w :: v :: windows)

/-- The windows of a stack after a step: a substream that is entered adds one. -/
def windowsAfter (step : Step) (stack : ReaderStack) (windows : List Window) : List Window :=
  match step with
  | .read _ => windows
  | .enter =>
    match Read.substream stack.current with
    | .ok body _ => ⟨body.offset, body.offset + body.remaining⟩ :: windows
    | .error _ _ => windows
  | .leave => if stack.outer.isEmpty then windows else windows.tail

/-- The windows of a stack after several steps. They are computed beside the readers, from what the
steps entered, not from what is left of them. -/
def windowsAfterAll : List Step → ReaderStack → List Window → List Window
  | [], _, windows => windows
  | step :: steps, stack, windows =>
    windowsAfterAll steps (stack.run step).2 (windowsAfter step stack windows)

theorem Nested.exists_within (h : Nested input stack windows) :
    ∃ w rest, windows = w :: rest ∧ stack.current.Within input w := by
  cases h with
  | outermost within => exact ⟨_, _, rfl, within⟩
  | entered around within framed start_le stop_le => exact ⟨_, _, rfl, within⟩

/-- A reader that moves on within its window does not disturb those around it. -/
theorem Nested.skip (h : Nested input stack windows) {k : Nat} (hk : k ≤ stack.current.remaining) :
    Nested input { stack with current := stack.current.skip k } windows := by
  cases h with
  | outermost within => exact .outermost (within.skip hk)
  | entered around within framed start_le stop_le =>
      exact .entered around (within.skip hk) framed start_le stop_le

/-- Reading an item moves the current reader within its bytes. -/
theorem exists_skip_of_read (stack : ReaderStack) (step : ReadStep) :
    ∃ k ≤ stack.current.remaining,
      (stack.run (.read step)).2 = { stack with current := stack.current.skip k } := by
  cases hread : step.read stack.current with
  | ok item r =>
      obtain ⟨k, hk, rfl⟩ := step.advances_read.ok _ _ _ hread
      exact ⟨k, hk, by simp only [ReaderStack.run, EStateM.run, hread]⟩
  | error e r =>
      obtain ⟨k, hk, rfl⟩ := step.advances_read.error _ _ _ hread
      exact ⟨k, hk, by simp only [ReaderStack.run, EStateM.run, hread]⟩

/-- A step leads to readers in windows again, and not back. Reading moves the current reader,
entering adds one that starts where it stood, leaving returns to the reader around. -/
theorem Nested.run (h : Nested input stack windows) (step : Step) :
    Nested input (stack.run step).2 (windowsAfter step stack windows) ∧
      stack.current.offset ≤ (stack.run step).2.current.offset := by
  cases step with
  | read step =>
      obtain ⟨k, hk, hrun⟩ := stack.exists_skip_of_read step
      rw [hrun]
      exact ⟨h.skip hk, Nat.le_add_right _ _⟩
  | enter =>
      cases hrun : Read.substream stack.current with
      | ok body r =>
          obtain ⟨w, rest, rfl, hwithin⟩ := h.exists_within
          -- The reader that is left outside is behind the whole substream at once.
          obtain ⟨hr, hbody, hframed, hstart, hstop⟩ := hwithin.substream hrun
          obtain ⟨k, hk, rfl⟩ := Read.advances_substream.ok _ _ _ hrun
          have haround := h.skip hk
          obtain ⟨hoffset, -⟩ := Read.offset_of_substream hrun
          simp only [ReaderStack.run, EStateM.run, windowsAfter, hrun]
          exact ⟨.entered haround hbody hframed hstart hstop, by omega⟩
      | error e r =>
          -- A substream that cannot be entered has still moved the reader.
          obtain ⟨k, hk, rfl⟩ := Read.advances_substream.error _ _ _ hrun
          simp only [ReaderStack.run, EStateM.run, windowsAfter, hrun]
          exact ⟨h.skip hk, Nat.le_add_right _ _⟩
  | leave =>
      cases h with
      | outermost within => exact ⟨.outermost within, Nat.le_refl _⟩
      | entered around within framed start_le stop_le =>
          -- The reader around has read past the window, and the current one is still in it.
          refine ⟨around, ?_⟩
          have hstop := within.stop_eq
          show _ ≤ _
          simp only [ReaderStack.run]
          omega

/-- Any number of steps leads to readers in windows, and not back. -/
theorem Nested.runAll (h : Nested input stack windows) (steps : List Step) :
    Nested input (stack.runAll steps).2 (windowsAfterAll steps stack windows) ∧
      stack.current.offset ≤ (stack.runAll steps).2.current.offset := by
  induction steps generalizing stack windows with
  | nil => exact ⟨h, Nat.le_refl _⟩
  | cons step steps ih =>
      obtain ⟨hnext, hle⟩ := h.run step
      obtain ⟨hlast, hle'⟩ := ih hnext
      exact ⟨hlast, Nat.le_trans hle hle'⟩

/-- What is true of the readers of a script wherever it has come to. -/
structure Faithful (input : List UInt8) (stack : ReaderStack) (windows : List Window) : Prop where
  /-- What the current reader has not read is the input from its offset on. -/
  unread_eq : stack.current.unread =
    (input.drop stack.current.offset).take stack.current.remaining
  /-- All of it is there. -/
  stop_le : stack.current.offset + stack.current.remaining ≤ input.length
  /-- Every window is a substream that the reader around it has read past. -/
  nested : Nested input stack windows
  /-- Nothing that follows leads back. -/
  forward : ∀ steps, stack.current.offset ≤ (stack.runAll steps).2.current.offset
  /-- A single item that cannot be read leaves everything as it is. -/
  stays : ∀ step error, step.IsSingle → (stack.run (.read step)).1 = .error error →
    (stack.run (.read step)).2 = stack
  /-- A text that cannot be read has been read as far as it was possible. -/
  text_iff : ∀ error after, stack.run (.read .text) = (.error error, after) ↔
    ∃ r, Read.TextFault stack.current error r ∧ after = { stack with current := r }

theorem stays_of_isSingle {step : ReadStep} {error : DecodeError} (h : step.IsSingle)
    (hrun : (stack.run (.read step)).1 = .error error) : (stack.run (.read step)).2 = stack := by
  cases hread : step.read stack.current with
  | ok item r => simp only [ReaderStack.run, EStateM.run, hread, reduceCtorEq] at hrun
  | error e r =>
      obtain rfl := h.stays _ _ _ hread
      simp only [ReaderStack.run, EStateM.run, hread]

theorem run_text_eq_error_iff {error : DecodeError} {after : ReaderStack} :
    stack.run (.read .text) = (.error error, after) ↔
      ∃ r, Read.TextFault stack.current error r ∧ after = { stack with current := r } := by
  have hread : ReadStep.text.read = (do return .text (← Read.text)) := rfl
  simp only [← Read.text_eq_error_iff, ReaderStack.run, EStateM.run, hread]
  cases htext : Read.text stack.current with
  | ok s r => simp [run_bind_of_ok htext]
  | error e r => simp [run_bind_of_error htext, eq_comm]

/-- Whatever the bytes and whatever is done with them, the readers stand in windows of the input,
and move on only over what they could read. -/
theorem faithful_runAll (input : List UInt8) (steps : List Step) :
    Faithful input (runAll steps ⟨.ofBytes input, []⟩).2
      (windowsAfterAll steps ⟨.ofBytes input, []⟩ [⟨0, input.length⟩]) := by
  have hstart : Nested input ⟨.ofBytes input, []⟩ [⟨0, input.length⟩] :=
    .outermost (Reader.within_ofBytes input)
  obtain ⟨hnested, -⟩ := hstart.runAll steps
  obtain ⟨w, rest, -, hwithin⟩ := hnested.exists_within
  exact ⟨hwithin.unread_eq, hwithin.stop_eq ▸ hwithin.stop_le, hnested,
    fun more => (hnested.runAll more).2, fun step error => stays_of_isSingle,
    fun error after => run_text_eq_error_iff⟩

end ReaderStack

end SyntaxPack
