import SyntaxPack.Bytes.Script
import SyntaxPack.Proofs.Buffer
/-!
# SyntaxPack.Proofs.Script.ReadBack

What a script writes is read back, step by step.

A script runs in place: each step changes the buffer that the steps before it have left. So what it
writes is not given by its definition, and the first section finds it out. Every step has an item
(`WriteStep.output`, or `WriteStep.spliced` if its substreams take what their steps leave), and it
adds this item to the buffer as a whole or not at all. A step fails only because its number or its
substream is too large (`WriteStep.Refused`), and then the buffer is as it was.

The other sections read the items back. Each step that succeeds has steps for this
(`WriteStep.readBack`); for a substream they enter it, read its own items, find its end and leave
it. A step takes the bytes it has written and no others, so steps can be read back one after another
and inside of one another (`Replays`).
-/

namespace SyntaxPack

/-! ### Writing

The item of a step is computed apart from any buffer, by recursion on the step. The program of the
same step runs in a buffer, byte by byte. That the two agree is shown along the same recursion, with
what each primitive does to a buffer taken from `Write.Adds`; after that no program is opened
again. -/

namespace WriteStep

mutual

/-- The item of a step. -/
def output : WriteStep → Except EncodeError (List UInt8)
  | byte value => .ok [value]
  | bytes value => .ok value
  | nat24 value => .ok (Bytes.fixed 3 value)
  | nat32 value => .ok (Bytes.fixed 4 value)
  | int32 value => .ok (Bytes.fixedSigned value)
  | double value => .ok (Bytes.ofDouble value)
  | unsigned value => .ok (Varint.encodeUnsigned value)
  | signed value => .ok (Varint.encodeSigned value)
  | text value => .ok (Bytes.ofText value)
  | count label value => Bytes.ofCount label value
  | substream label steps => do Bytes.framed label (← outputs steps)
  | index e table value => e.writeIndex table value
  | reference e table value => e.writeReference table value
  | integer e value => .ok (e.writeInteger value)

/-- The items of several steps, or the first error. -/
def outputs : List WriteStep → Except EncodeError (List UInt8)
  | [] => .ok []
  | step :: steps => do return (← step.output) ++ (← outputs steps)

end

/-- The item of a step whose substream is what its steps leave in a buffer of their own. -/
def spliced : WriteStep → Except EncodeError (List UInt8)
  | substream label steps => Bytes.framed label (fill steps [])
  | step => step.output

mutual

/-- A step adds its item to the buffer, or leaves the buffer as it was. A substream does so although
its items may end half way: they are written apart, and what is checked and copied afterwards is a
buffer that is complete. -/
theorem adds_program : ∀ step : WriteStep, step.program.Adds step.output
  | byte value => Write.adds_push value
  | bytes value => Write.adds_put value
  | nat24 value => Write.adds_put (Bytes.fixed 3 value)
  | nat32 value => Write.adds_put (Bytes.fixed 4 value)
  | int32 value => Write.adds_put (Bytes.fixedSigned value)
  | double value => Write.adds_put (Bytes.ofDouble value)
  | unsigned value => Write.adds_unsigned value
  | signed value => Write.adds_signed value
  | text value => Write.adds_text value
  | count label value => Write.adds_count label value
  | substream label steps => (fills_programs steps).adds_apart (Write.adds_substream label)
  | index e table value => e.adds_putToken table value
  | reference e table value => e.adds_putToken table (value.elim 0 (· + 1))
  | integer e value => e.adds_putInteger value

/-- Steps in a row add their items up to the first that fails, and may leave those in front of it
behind. -/
theorem fills_programs : ∀ steps : List WriteStep, (programs steps).Fills (outputs steps)
  | [] => Write.adds_pure.fills
  | step :: steps => by
      rw [programs, outputs]
      exact (adds_program step).fills.seq (fills_programs steps)

end

/-- Steps in a row do not have this in common with a single step: the byte in front of a count that
is too large stays where it is. -/
example : (programs [.byte 7, .count "arrays" 0x100000000]).on [1] =
    (.error (.sectionTooLarge "arrays" 0x100000000), [1, 7]) := by
  rfl

theorem adds_splice (step : WriteStep) : step.splice.Adds step.spliced := by
  cases step with
  | substream label steps =>
      rw [splice, spliced]
      exact Write.adds_substream label (fill steps [])
  | byte | bytes | nat24 | nat32 | int32 | double | unsigned | signed | text | count | index
  | reference | integer => exact adds_program _

variable {step : WriteStep} {steps : List WriteStep} {buffer after output : List UInt8}
  {error : EncodeError}

mutual

/-- The value of a step is of the kind that the step is for. -/
def Typed : WriteStep → Prop
  | nat24 value => value < 256 ^ 3
  | nat32 value => value < UInt32.size
  | int32 value | integer _ value => Double.isPayload value = true
  | unsigned value => value < 2 ^ 64
  | signed value => -2 ^ 63 ≤ value ∧ value < 2 ^ 63
  | text value => (Utf8.encode value).length < 2 ^ 64
  | substream _ steps => AllTyped steps
  | byte _ | bytes _ | double _ | count _ _ | index _ _ _ | reference _ _ _ => True

/-- The values of several steps are of their kinds. -/
def AllTyped : List WriteStep → Prop
  | [] => True
  | step :: steps => step.Typed ∧ AllTyped steps

end

/-- A step that cannot be written, and the error that says why: a count or a substream has more than
32 bits, or a token more than its encoding can carry. -/
inductive Refused : WriteStep → EncodeError → Prop
  | count {label : String} {value : Nat} (too_large : UInt32.size ≤ value) :
    Refused (.count label value) (.sectionTooLarge label value)
  | substream {label : String} {steps : List WriteStep}
    (too_large : UInt32.size ≤ (fill steps []).length) :
    Refused (.substream label steps) (.sectionTooLarge label (fill steps []).length)
  | index {e : IndexEncoding} {table : String} {value : Nat} (too_large : e.maxToken < value) :
    Refused (.index e table value) (.indexOverflow table value e)
  | reference {e : IndexEncoding} {table : String} {index : Option Nat}
    (too_large : e.maxToken < index.elim 0 (· + 1)) :
    Refused (.reference e table index) (.indexOverflow table (index.elim 0 (· + 1)) e)

/-- A step fails if and only if it is refused. -/
theorem spliced_eq_error_iff : step.spliced = .error error ↔ step.Refused error := by
  constructor
  · intro h
    cases step with
    | count label value =>
        obtain ⟨hlarge, rfl⟩ := Bytes.ofCount_eq_error_iff.mp h
        exact .count hlarge
    | substream label steps =>
        obtain ⟨hlarge, rfl⟩ := Bytes.framed_eq_error_iff.mp (by rwa [spliced] at h)
        exact .substream hlarge
    | index e table value =>
        obtain ⟨hlarge, rfl⟩ := IndexEncoding.writeToken_eq_error_iff.mp h
        exact .index hlarge
    | reference e table index =>
        obtain ⟨hlarge, rfl⟩ := IndexEncoding.writeToken_eq_error_iff.mp h
        exact .reference hlarge
    | byte | bytes | nat24 | nat32 | int32 | double | unsigned | signed | text | integer =>
        simp [spliced, WriteStep.output] at h
  · intro h
    cases h with
    | count hlarge => exact Bytes.ofCount_eq_error_iff.mpr ⟨hlarge, rfl⟩
    | substream hlarge =>
        rw [spliced]
        exact Bytes.framed_eq_error_iff.mpr ⟨hlarge, rfl⟩
    | index hlarge => exact IndexEncoding.writeToken_eq_error_iff.mpr ⟨hlarge, rfl⟩
    | reference hlarge => exact IndexEncoding.writeToken_eq_error_iff.mpr ⟨hlarge, rfl⟩

theorem write_of_ok (h : step.spliced = .ok output) (buffer : List UInt8) :
    step.write buffer = (.ok (), buffer ++ output) :=
  (h ▸ adds_splice step).on_of_ok buffer

theorem write_of_error (h : step.spliced = .error error) (buffer : List UInt8) :
    step.write buffer = (.error error, buffer) :=
  (h ▸ adds_splice step).on_of_error buffer

/-- A step that fails leaves the buffer as it was. -/
theorem write_eq_error_iff : step.write buffer = (.error error, after) ↔
    step.Refused error ∧ after = buffer := by
  rw [← spliced_eq_error_iff]
  cases h : step.spliced with
  | ok output => simp [write_of_ok h]
  | error e => simp [write_of_error h, eq_comm]

theorem run_of_ok (h : step.output = .ok output) (buffer : List UInt8) :
    step.run buffer = (.ok (), buffer ++ output) :=
  (h ▸ adds_program step).on_of_ok buffer

theorem run_of_error (h : step.output = .error error) (buffer : List UInt8) :
    step.run buffer = (.error error, buffer) :=
  (h ▸ adds_program step).on_of_error buffer

/-- So does a step whose substreams take all of their items: not even the items in front of the one
that failed are left behind. -/
theorem eq_of_run_eq_error (h : step.run buffer = (.error error, after)) : after = buffer := by
  cases houtput : step.output with
  | ok output => simp [run_of_ok houtput] at h
  | error e =>
      rw [run_of_error houtput] at h
      exact (Prod.mk.inj h).2.symm

/-- Of a token that fails, nothing is left under its tag or under any other one. At most an empty
stream is there that was not there before. -/
theorem bytesUnder_of_runUnder_eq_error {tag : Nat} {w w' : StreamWriter}
    (h : step.runUnder tag w = (.error error, w')) (key : Nat) :
    w'.bytesUnder key = w.bytesUnder key := by
  obtain ⟨hresult, rfl⟩ := Prod.mk.inj h
  have hsame : (step.run (w.bytesUnder tag)).2 = w.bytesUnder tag :=
    eq_of_run_eq_error (Prod.ext hresult rfl)
  rw [hsame]
  exact w.bytesUnder_setUnder_self tag key

theorem fill_cons (step : WriteStep) (steps : List WriteStep) (buffer : List UInt8) :
    fill (step :: steps) buffer = fill steps (step.write buffer).2 := by
  rw [fill, write]

/-- A script goes on from what is in the buffer. -/
theorem fill_eq_append (steps : List WriteStep) (buffer : List UInt8) :
    fill steps buffer = buffer ++ fill steps [] := by
  induction steps generalizing buffer with
  | nil => simp [fill]
  | cons step steps ih =>
      cases h : step.spliced with
      | ok output =>
          rw [fill_cons, fill_cons, write_of_ok h, write_of_ok h, ih, List.nil_append, ih output,
            List.append_assoc]
      | error e => rw [fill_cons, fill_cons, write_of_error h, write_of_error h, ih]

mutual

/-- Where nothing fails, it makes no difference whether a step stops its substream. -/
theorem spliced_of_output : ∀ {step : WriteStep} {output : List UInt8},
    step.output = .ok output → step.spliced = .ok output
  | .substream label steps, output, h => by
      rw [WriteStep.output] at h
      obtain ⟨body, hbody, hframed⟩ := bind_eq_ok.mp h
      rwa [spliced, fill_of_outputs hbody]
  | .byte _, _, h | .bytes _, _, h | .nat24 _, _, h | .nat32 _, _, h | .int32 _, _, h
  | .double _, _, h | .unsigned _, _, h | .signed _, _, h | .text _, _, h | .count _ _, _, h
  | .index _ _ _, _, h | .reference _ _ _, _, h | .integer _ _, _, h => h

theorem fill_of_outputs : ∀ {steps : List WriteStep} {output : List UInt8},
    outputs steps = .ok output → fill steps [] = output
  | [], output, h => Except.ok.inj h
  | step :: steps, output, h => by
      rw [outputs] at h
      obtain ⟨front, hfront, h₁⟩ := bind_eq_ok.mp h
      obtain ⟨rest, hrest, h₂⟩ := bind_eq_ok.mp h₁
      obtain rfl := Except.ok.inj h₂
      rw [fill_cons, write_of_ok (spliced_of_output hfront), fill_eq_append, fill_of_outputs hrest,
        List.nil_append]

end

end WriteStep

/-! ### Reading

A script is read back in a stack of readers. `Replays` quantifies over what follows the bytes and
over the readers around the current one, so scripts can be put in a row and inside of substreams. -/

namespace ReaderStack

variable {script more : List (Step × Item)} {bytes bytes' : List UInt8}

theorem runAll_append (steps more : List Step) (stack : ReaderStack) :
    runAll (steps ++ more) stack =
      ((runAll steps stack).1 ++ (runAll more (runAll steps stack).2).1,
        (runAll more (runAll steps stack).2).2) := by
  induction steps generalizing stack with
  | nil => rfl
  | cons step steps ih => simp only [List.cons_append, runAll, ih]

/-- Steps give these items, and take exactly these bytes off the front of the current reader. -/
def Replays (script : List (Step × Item)) (bytes : List UInt8) : Prop :=
  ∀ (rest : List UInt8) (offset : Nat) (outer : List Reader),
    runAll (script.map Prod.fst) ⟨⟨bytes ++ rest, offset⟩, outer⟩ =
      (script.map fun p => .ok p.2, ⟨⟨rest, offset + bytes.length⟩, outer⟩)

theorem replays_nil : Replays [] [] := fun _ _ _ => rfl

theorem Replays.append (h : Replays script bytes) (h' : Replays more bytes') :
    Replays (script ++ more) (bytes ++ bytes') := by
  intro rest offset outer
  rw [List.map_append, List.map_append, runAll_append, List.append_assoc,
    h (bytes' ++ rest) offset outer, h' rest (offset + bytes.length) outer, List.length_append,
    Nat.add_assoc]

/-- A single item is replayed by the step that reads it. -/
theorem replays_read {step : ReadStep} {item : Item} (h : step.read.Takes bytes item) :
    Replays [(.read step, item)] bytes := by
  intro rest offset outer
  simp only [List.map_cons, List.map_nil, runAll, ReaderStack.run, EStateM.run, h rest offset]

/-- What is replayed from a substream is all that is in it. -/
theorem Replays.substream {label : String} {framed : List UInt8} (h : Replays script bytes)
    (hframed : Bytes.framed label bytes = .ok framed) :
    Replays ((.enter, .nothing) :: script ++ [(.read (.expectEnd label), .nothing), (.leave, .nothing)])
      framed := by
  intro rest offset outer
  have hbody := h [] (offset + 4) (⟨rest, offset + framed.length⟩ :: outer)
  rw [List.append_nil] at hbody
  have henter : run .enter ⟨⟨framed ++ rest, offset⟩, outer⟩ =
      (.ok .nothing, ⟨⟨bytes, offset + 4⟩, ⟨rest, offset + framed.length⟩ :: outer⟩) := by
    simp only [run, EStateM.run, Read.run_substream hframed rest offset]
  -- At the end of the substream nothing is left to be read.
  have hend : ∀ stop outer, run (.read (.expectEnd label)) ⟨⟨[], stop⟩, outer⟩ =
      (.ok .nothing, ⟨⟨[], stop⟩, outer⟩) := fun stop outer => rfl
  have hleave : ∀ r r' : Reader, run .leave ⟨r, r' :: outer⟩ = (.ok .nothing, ⟨r', outer⟩) :=
    fun r r' => rfl
  simp only [List.cons_append, List.map_cons, List.map_append, List.map_nil, runAll, henter,
    runAll_append, hbody, hend, hleave]

end ReaderStack

namespace WriteStep

open ReaderStack

mutual

/-- The steps that read the item of a step, and what they give. -/
def readBack : WriteStep → List (ReaderStack.Step × Item)
  | byte value => [(.read .byte, .number value.toNat)]
  | bytes value => [(.read (.bytes value.length), .bytes value)]
  | nat24 value => [(.read .nat24, .number value)]
  | nat32 value => [(.read .nat32, .number value)]
  | int32 value => [(.read .int32, .number value)]
  | double value => [(.read .double, .double value)]
  | unsigned value => [(.read .unsigned, .varint value)]
  | signed value => [(.read .signed, .varint value)]
  | text value => [(.read .text, .text value)]
  | count _ value => [(.read .nat32, .number value)]
  | substream label steps =>
    (.enter, .nothing) :: readBackAll steps ++
      [(.read (.expectEnd label), .nothing), (.leave, .nothing)]
  | index e _ value => [(.read (.index e), .number value)]
  | reference e _ value => [(.read (.reference e), .reference value)]
  | integer e value => [(.read (.integer e), .number value)]

/-- The steps that read the items of several steps, but for those that fail. -/
def readBackAll : List WriteStep → List (ReaderStack.Step × Item)
  | [] => []
  | step :: steps =>
    match step.spliced with
    | .ok _ => step.readBack ++ readBackAll steps
    | .error _ => readBackAll steps

end

theorem readBackAll_of_ok {step : WriteStep} {steps : List WriteStep} {output : List UInt8}
    (h : step.spliced = .ok output) :
    readBackAll (step :: steps) = step.readBack ++ readBackAll steps := by
  rw [readBackAll]
  simp only [h]

theorem readBackAll_of_error {step : WriteStep} {steps : List WriteStep} {error : EncodeError}
    (h : step.spliced = .error error) : readBackAll (step :: steps) = readBackAll steps := by
  rw [readBackAll]
  simp only [h]

/-- A single item is read back by the one step that is for it. -/
theorem replays_item {step : WriteStep} {bytes : List UInt8} (htyped : step.Typed)
    (h : step.spliced = .ok bytes) (hitem : ∀ label steps, step ≠ .substream label steps) :
    Replays step.readBack bytes := by
  cases step with
  | byte value =>
      obtain rfl := Except.ok.inj h
      refine replays_read ?_
      exact (Read.takes_byte value).map fun b => Item.number b.toNat
  | bytes value =>
      obtain rfl := Except.ok.inj h
      refine replays_read ?_
      exact (Read.takes_bytes value).map Item.bytes
  | nat24 value =>
      obtain rfl := Except.ok.inj h
      refine replays_read ?_
      exact (Read.takes_nat24 htyped).map fun n => Item.number n
  | nat32 value =>
      obtain rfl := Except.ok.inj h
      refine replays_read ?_
      exact (Read.takes_nat32 htyped).map fun n => Item.number n
  | int32 value =>
      obtain rfl := Except.ok.inj h
      refine replays_read ?_
      exact (Read.takes_int32 htyped).map Item.number
  | double value =>
      obtain rfl := Except.ok.inj h
      refine replays_read ?_
      exact (Read.takes_double value).map Item.double
  | unsigned value =>
      obtain rfl := Except.ok.inj h
      refine replays_read ?_
      exact (Read.takes_unsigned htyped).map fun n => Item.varint n
  | signed value =>
      obtain rfl := Except.ok.inj h
      refine replays_read ?_
      exact (Read.takes_signed htyped.1 htyped.2).map Item.varint
  | text value =>
      obtain rfl := Except.ok.inj h
      refine replays_read ?_
      exact (Read.takes_text htyped).map Item.text
  | count label value =>
      obtain ⟨hlt, rfl⟩ := Bytes.ofCount_eq_ok_iff.mp h
      refine replays_read ?_
      exact (Read.takes_nat32 hlt).map fun n => Item.number n
  | substream label steps => exact absurd rfl (hitem label steps)
  | index e table value =>
      refine replays_read ?_
      exact (IndexEncoding.takes_readIndex h).map fun n => Item.number n
  | reference e table index =>
      refine replays_read ?_
      exact (IndexEncoding.takes_readReference h).map Item.reference
  | integer e value =>
      obtain rfl := Except.ok.inj h
      refine replays_read ?_
      exact (IndexEncoding.takes_readInteger htyped).map Item.number

mutual

/-- A step that succeeds is read back from the bytes that it has written. -/
theorem replays_readBack : ∀ {step : WriteStep} {bytes : List UInt8},
    step.Typed → step.spliced = .ok bytes → Replays step.readBack bytes
  | .substream label steps, output, htyped, h => by
      rw [spliced] at h
      rw [readBack]
      exact (replays_readBackAll htyped).substream h
  | .byte _, _, htyped, h | .bytes _, _, htyped, h | .nat24 _, _, htyped, h
  | .nat32 _, _, htyped, h | .int32 _, _, htyped, h | .double _, _, htyped, h
  | .unsigned _, _, htyped, h | .signed _, _, htyped, h | .text _, _, htyped, h
  | .count _ _, _, htyped, h | .index _ _ _, _, htyped, h | .reference _ _ _, _, htyped, h
  | .integer _ _, _, htyped, h => replays_item htyped h (by simp)

theorem replays_readBackAll : ∀ {steps : List WriteStep},
    AllTyped steps → Replays (readBackAll steps) (fill steps [])
  | [], _ => replays_nil
  | step :: steps, htyped => by
      have hsteps := replays_readBackAll htyped.2
      rw [fill_cons, fill_eq_append]
      cases h : step.spliced with
      | ok output =>
          rw [write_of_ok h, readBackAll_of_ok h]
          exact (replays_readBack htyped.1 h).append hsteps
      | error e =>
          rw [write_of_error h, readBackAll_of_error h]
          exact hsteps

end

/-- What a script writes, and what is read from that. -/
structure ReadsBack (steps : List WriteStep) : Prop where
  /-- The buffer is what the steps leave in it one after another. -/
  fill_eq : fill steps [] = steps.foldl (fun buffer step => (step.write buffer).2) []
  /-- A step fails if and only if it is refused, and then leaves the buffer as it was. -/
  fails_iff : ∀ step buffer error after, WriteStep.write step buffer = (.error error, after) ↔
    step.Refused error ∧ after = buffer
  /-- A step that takes all items of its substreams or fails leaves the buffer as it was, too. -/
  run_unchanged : ∀ step buffer error after, WriteStep.run step buffer = (.error error, after) →
    after = buffer
  /-- A token that fails leaves the bytes under every tag as they were. -/
  routed_unchanged : ∀ step tag w error w', WriteStep.runUnder step tag w = (.error error, w') →
    ∀ key, w'.bytesUnder key = w.bytesUnder key
  /-- The steps that read the script back give the items that were written, find the end of each
  substream, and leave nothing to be read. -/
  runAll_eq : runAll ((readBackAll steps).map Prod.fst) ⟨.ofBytes (fill steps []), []⟩ =
    ((readBackAll steps).map fun p => .ok p.2, ⟨⟨[], (fill steps []).length⟩, []⟩)

/-- Every script is read back. -/
theorem readsBack_of_typed {steps : List WriteStep} (h : AllTyped steps) : ReadsBack steps := by
  refine ⟨?_, fun step buffer error after => write_eq_error_iff,
    fun step buffer error after => eq_of_run_eq_error,
    fun step tag w error w' => bytesUnder_of_runUnder_eq_error, ?_⟩
  · suffices ∀ buffer, fill steps buffer =
        steps.foldl (fun buffer step => (step.write buffer).2) buffer from this []
    clear h
    induction steps with
    | nil => exact fun buffer => rfl
    | cons step steps ih => exact fun buffer => (fill_cons step steps buffer).trans (ih _)
  · have hreplays := replays_readBackAll h [] 0 []
    rwa [List.append_nil, Nat.zero_add] at hreplays

/-- A substream in a substream, and steps that fail inside and outside of them. -/
def nestedSteps : List WriteStep :=
  [.byte 7, .substream "outer" [.reference .fixed24 "strings" (some 0xffffff),
    .substream "inner" [.double ⟨0x7ff8000000000001⟩], .text "é", .index .fixed24 "tags" 0xffffff],
    .count "arrays" 0x100000000, .reference .fixed24 "strings" (some 0xfffffe),
    .integer .varint (-0x80000000)]

/-- Two steps are refused. All others are read back, with the bits of what is no number. -/
theorem readsBack_nestedSteps : AllTyped nestedSteps ∧ ReadsBack nestedSteps ∧
    fill nestedSteps [] = [7, 22, 0, 0, 0, 8, 0, 0, 0, 1, 0, 0, 0, 0, 0, 0xf8, 0x7f, 8, 0, 0, 0,
      2, 0xc3, 0xa9, 0xff, 0xff, 0xff, 22, 0, 0, 0, 0xff, 0xff, 0xff, 0x80, 0x80, 0x80, 0x80, 0x78] ∧
    (readBackAll nestedSteps).map Prod.snd = [.number 7, .nothing, .nothing,
      .double ⟨0x7ff8000000000001⟩, .nothing, .nothing, .text "é", .number 0xffffff, .nothing,
      .nothing, .reference (some 0xfffffe), .number (-0x80000000)] := by
  have htyped : AllTyped nestedSteps := by
    simp only [nestedSteps, AllTyped, Typed, and_self, and_true, true_and]
    decide
  exact ⟨htyped, readsBack_of_typed htyped, by decide +kernel, by decide +kernel⟩

end WriteStep

end SyntaxPack
