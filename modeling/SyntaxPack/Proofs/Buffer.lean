import SyntaxPack.Bytes.Buffer
import SyntaxPack.Proofs.Monad
import SyntaxPack.Proofs.Written
/-!
# SyntaxPack.Proofs.Buffer

Writing in place, and what it comes to.

An item of `Bytes.Writer` is a list of bytes or an error. The program of `Bytes.Buffer` that writes
the same item has a buffer besides, and nothing about an `EStateM` program keeps it from failing
with half of an item in there. That none of the items does so is a result here: a program `Adds` an
item if it puts the bytes behind whatever is in the buffer, or fails with the same error and the
buffer as it was. Each program that can fail makes its check first, and what is behind the check
cannot fail.

A sequence of programs is another matter, as the first of them may succeed and the second fail. Of
sequences it is only said which bytes they add if they succeed (`Fills`). That is enough for a
substream, whose items are written apart: a buffer that is dropped may be left in any state.
-/

namespace SyntaxPack

namespace Write

variable {first next : Write Unit} {outcome outcome' : Except EncodeError (List UInt8)}
  {output output' : List UInt8} {error : EncodeError}

/-! ### Outcomes -/

/-- A program adds an item to any buffer, or fails and leaves the buffer as it was. -/
inductive Adds (program : Write Unit) : Except EncodeError (List UInt8) → Prop
  /-- All bytes of the item are behind those that were there, which have not changed. -/
  | ok {output : List UInt8} (h : ∀ buffer, program buffer = .ok () (buffer ++ output)) :
    Adds program (.ok output)
  /-- Nothing has been written. -/
  | error {error : EncodeError} (h : ∀ buffer, program buffer = .error error buffer) :
    Adds program (.error error)

/-- A program adds bytes to any buffer, or fails and leaves whatever it has written by then. -/
inductive Fills (program : Write Unit) : Except EncodeError (List UInt8) → Prop
  /-- All bytes are behind those that were there, which have not changed. -/
  | ok {output : List UInt8} (h : ∀ buffer, program buffer = .ok () (buffer ++ output)) :
    Fills program (.ok output)
  /-- Nothing is said about the buffer that is left. -/
  | error {error : EncodeError} (h : ∀ buffer, ∃ left, program buffer = .error error left) :
    Fills program (.error error)

theorem Adds.eq_ok (h : first.Adds (.ok output)) (buffer : List UInt8) :
    first buffer = .ok () (buffer ++ output) := by
  cases h with
  | ok h => exact h buffer

theorem Adds.eq_error (h : first.Adds (.error error)) (buffer : List UInt8) :
    first buffer = .error error buffer := by
  cases h with
  | error h => exact h buffer

theorem Adds.fills (h : first.Adds outcome) : first.Fills outcome := by
  cases h with
  | ok h => exact .ok h
  | error h => exact .error fun buffer => ⟨buffer, h buffer⟩

/-- Two items in a row are added as one if neither of them can fail. -/
theorem Adds.seq (h : first.Adds (.ok output)) (h' : next.Adds (.ok output')) :
    Adds (do first; next) (.ok (output ++ output')) := by
  refine .ok fun buffer => ?_
  rw [run_bind_of_ok (h.eq_ok buffer), h'.eq_ok, List.append_assoc]

/-- If the second of two programs fails, the bytes of the first one are left behind. -/
theorem Fills.seq (h : first.Fills outcome) (h' : next.Fills outcome') :
    Fills (do first; next) (do return (← outcome) ++ (← outcome')) := by
  cases h with
  | error h =>
      refine .error fun buffer => ?_
      obtain ⟨left, hfirst⟩ := h buffer
      exact ⟨left, run_bind_of_error hfirst⟩
  | ok h =>
      cases h' with
      | error h' =>
          refine .error fun buffer => ?_
          obtain ⟨left, hnext⟩ := h' (buffer ++ _)
          exact ⟨left, (run_bind_of_ok (h buffer)).trans hnext⟩
      | ok h' =>
          refine .ok fun buffer => ?_
          rw [run_bind_of_ok (h buffer), h', List.append_assoc]

/-- A program that runs apart gives its bytes, and the current buffer is as it was. -/
theorem Fills.apart_of_ok (h : first.Fills (.ok output)) (buffer : List UInt8) :
    apart first buffer = .ok output buffer := by
  cases h with
  | ok h => simp only [apart, on, h, List.nil_append, run_pure]

/-- A program that fails apart may leave its own buffer half written, but not the current one. -/
theorem Fills.apart_of_error (h : first.Fills (.error error)) (buffer : List UInt8) :
    apart first buffer = .error error buffer := by
  cases h with
  | error h =>
      obtain ⟨left, hfirst⟩ := h []
      simp only [apart, on, hfirst, run_throw]

/-- What is written apart first can be added as an item afterwards. Only what is done with the
buffer that was filled has to leave the current one alone when it fails. -/
theorem Fills.adds_apart {put : List UInt8 → Write Unit}
    {item : List UInt8 → Except EncodeError (List UInt8)} (h : first.Fills outcome)
    (hput : ∀ child, (put child).Adds (item child)) :
    Adds (do put (← apart first)) (do item (← outcome)) := by
  cases outcome with
  | ok child =>
      have hrun : (do put (← apart first)) = put child :=
        funext fun buffer => run_bind_of_ok (h.apart_of_ok buffer)
      rw [hrun]
      exact hput child
  | error error => exact .error fun buffer => run_bind_of_error (h.apart_of_error buffer)

theorem Adds.on_of_ok (h : first.Adds (.ok output)) (buffer : List UInt8) :
    first.on buffer = (.ok (), buffer ++ output) := by
  simp only [on, h.eq_ok buffer]

theorem Adds.on_of_error (h : first.Adds (.error error)) (buffer : List UInt8) :
    first.on buffer = (.error error, buffer) := by
  simp only [on, h.eq_error buffer]

/-! ### Items -/

theorem adds_pure : Adds (pure ()) (.ok []) :=
  .ok fun buffer => by rw [run_pure, List.append_nil]

theorem adds_push (b : UInt8) : (push b).Adds (.ok [b]) := .ok fun _ => rfl

theorem adds_put (bytes : List UInt8) : (put bytes).Adds (.ok bytes) := .ok fun _ => rfl

/-- Bytes that are added one by one end up as all of them together. -/
theorem adds_forM_push (bytes : List UInt8) : Adds (bytes.forM push) (.ok bytes) := by
  induction bytes with
  | nil => exact adds_pure
  | cons b bytes ih => exact (adds_push b).seq ih

theorem adds_unsigned (n : Nat) : (unsigned n).Adds (.ok (Varint.encodeUnsigned n)) :=
  adds_forM_push (Varint.encodeUnsigned n)

theorem adds_signed (i : Int) : (signed i).Adds (.ok (Varint.encodeSigned i)) :=
  adds_forM_push (Varint.encodeSigned i)

theorem adds_text (s : String) : (text s).Adds (.ok (Bytes.ofText s)) :=
  (adds_unsigned (Utf8.encode s).length).seq (adds_put (Utf8.encode s))

theorem adds_count (label : String) (n : Nat) : (count label n).Adds (Bytes.ofCount label n) := by
  rw [count, Bytes.ofCount]
  by_cases hlarge : UInt32.size ≤ n
  · rw [if_pos hlarge, if_neg (Nat.not_lt.mpr hlarge)]
    exact .error fun _ => rfl
  · rw [if_neg hlarge, if_pos (Nat.lt_of_not_le hlarge)]
    exact adds_put (Bytes.fixed 4 n)

theorem adds_substream (label : String) (child : List UInt8) :
    (substream label child).Adds (Bytes.framed label child) := by
  rw [substream, Bytes.framed, Bytes.ofCount]
  by_cases hlarge : UInt32.size ≤ child.length
  · rw [if_pos hlarge, if_neg (Nat.not_lt.mpr hlarge)]
    exact .error fun _ => rfl
  · have hlength := adds_put (Bytes.fixed 4 child.length)
    rw [if_neg hlarge, if_pos (Nat.lt_of_not_le hlarge), ok_bind, List.append_assoc]
    exact hlength.seq ((adds_put child).seq hlength)

end Write

namespace IndexEncoding

open Write

theorem adds_putToken (e : IndexEncoding) (table : String) (value : Nat) :
    (e.putToken table value).Adds (e.writeToken table value) := by
  simp only [putToken, writeToken]
  split
  · exact .error fun _ => rfl
  · cases e with
    | varint => exact adds_unsigned value
    | fixed32 => exact adds_put (Bytes.fixed 4 value)
    | fixed24 => exact adds_put (Bytes.fixed 3 value)

theorem adds_putInteger (e : IndexEncoding) (value : Int) :
    (e.putInteger value).Adds (.ok (e.writeInteger value)) := by
  cases e with
  | varint => exact adds_signed value
  | fixed32 | fixed24 => exact adds_put (Bytes.fixedSigned value)

end IndexEncoding

end SyntaxPack
