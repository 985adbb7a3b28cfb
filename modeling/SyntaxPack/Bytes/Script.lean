import SyntaxPack.Bytes.Buffer
import SyntaxPack.Bytes.Reader
import SyntaxPack.Stream.Basic
/-!
# SyntaxPack.Bytes.Script

Writing and reading as data: scripts whose steps are the items of
`Bytes.Buffer` and `Bytes.Reader`.

A write step changes a buffer in place, and the next one goes on from whatever
it has left there. The items of a substream fill a buffer of their own first:
`run` copies that buffer only if none of them fails, `write` copies what they
have left in it either way. A script of read steps runs on a reader and the
readers it was entered from, and a step that fails does not end it. Tokens that
each have a tag are written and read where the tokens of the tag are.
-/

namespace SyntaxPack

/-! ### Writing -/

/-- An item to be written. -/
inductive WriteStep where
  /-- A byte. -/
  | byte (value : UInt8)
  /-- Bytes as they are. -/
  | bytes (value : List UInt8)
  /-- A number in 24 bits. -/
  | nat24 (value : Nat)
  /-- A number in 32 bits. -/
  | nat32 (value : Nat)
  /-- An integer in 32 bits. -/
  | int32 (value : Int)
  /-- A double. -/
  | double (value : Double)
  /-- An unsigned base-128 number. -/
  | unsigned (value : Nat)
  /-- A signed base-128 number. -/
  | signed (value : Int)
  /-- A text. -/
  | text (value : String)
  /-- The count of a section. -/
  | count (label : String) (value : Nat)
  /-- A substream with the items of another script. -/
  | substream (label : String) (steps : List WriteStep)
  /-- An index into a table. -/
  | index (e : IndexEncoding) (table : String) (value : Nat)
  /-- A reference into a table. -/
  | reference (e : IndexEncoding) (table : String) (value : Option Nat)
  /-- An integer payload. -/
  | integer (e : IndexEncoding) (value : Int)
  deriving Repr, Inhabited

namespace WriteStep

/-! A step is run on a buffer that is already there. What its items are written with is in
`Bytes.Buffer`, so whether a failing step leaves anything behind is not settled here. -/

mutual

/-- Writes an item. The items of a substream are written into a buffer of their own, and the first
of them that fails is the failure of the substream. -/
def program : WriteStep → Write Unit
  | byte value => Write.push value
  | bytes value => Write.put value
  | nat24 value => Write.nat24 value
  | nat32 value => Write.nat32 value
  | int32 value => Write.int32 value
  | double value => Write.double value
  | unsigned value => Write.unsigned value
  | signed value => Write.signed value
  | text value => Write.text value
  | count label value => Write.count label value
  | substream label steps => do Write.substream label (← Write.apart (programs steps))
  | index e table value => e.putIndex table value
  | reference e table value => e.putReference table value
  | integer e value => e.putInteger value

/-- Writes several items, up to the first that fails. Those in front of it stay in the buffer. -/
def programs : List WriteStep → Write Unit
  | [] => pure ()
  | step :: steps => do
    step.program
    programs steps

end

/-- Adds an item to a buffer, where a substream takes all of its items or fails. -/
def run (step : WriteStep) (buffer : List UInt8) : Except EncodeError Unit × List UInt8 :=
  step.program.on buffer

mutual

/-- Writes an item, where a substream is what its steps leave in a buffer of their own, whether all
of these succeed or not. -/
def splice : WriteStep → Write Unit
  | substream label steps => Write.substream label (fill steps [])
  | step => step.program

/-- What several steps leave in a buffer when each goes on from what the steps before it left
there. -/
def fill : List WriteStep → List UInt8 → List UInt8
  | [], buffer => buffer
  | step :: steps, buffer => fill steps (step.splice.on buffer).2

end

/-- Adds an item to a buffer, as `fill` does. -/
def write (step : WriteStep) (buffer : List UInt8) : Except EncodeError Unit × List UInt8 :=
  step.splice.on buffer

/-- Adds a token of a tag to the bytes that are where the tokens of the tag go. A stream is there
from the first token on, even if that one fails. -/
def runUnder (step : WriteStep) (tag : Nat) (w : StreamWriter) :
    Except EncodeError Unit × StreamWriter :=
  let result := step.run (w.bytesUnder tag)
  (result.1, w.setUnder tag result.2)

/-- Adds tokens one after another, each under its tag, whether they fail or not. -/
def runAllUnder :
    List (Nat × WriteStep) → StreamWriter → List (Except EncodeError Unit) × StreamWriter
  | [], w => ([], w)
  | token :: tokens, w =>
    let next := token.2.runUnder token.1 w
    let rest := runAllUnder tokens next.2
    (next.1 :: rest.1, rest.2)

end WriteStep

/-! ### Reading -/

/-- An item to be read. -/
inductive ReadStep where
  /-- A byte. -/
  | byte
  /-- As many bytes as given. -/
  | bytes (count : Nat)
  /-- A number of 24 bits. -/
  | nat24
  /-- A number of 32 bits. -/
  | nat32
  /-- An integer of 32 bits. -/
  | int32
  /-- A double. -/
  | double
  /-- An unsigned base-128 number. -/
  | unsigned
  /-- A signed base-128 number. -/
  | signed
  /-- A text. -/
  | text
  /-- An index. -/
  | index (e : IndexEncoding)
  /-- A reference. -/
  | reference (e : IndexEncoding)
  /-- An integer payload. -/
  | integer (e : IndexEncoding)
  /-- The end of a section. -/
  | expectEnd (label : String)
  /-- Whether the end is reached. -/
  | isAtEnd
  deriving DecidableEq, Repr, Inhabited

/-- What a read step gives. -/
inductive Item where
  /-- Nothing but success. -/
  | nothing
  /-- A byte, an index, or a number of 24 or 32 bits. -/
  | number (value : Int)
  /-- A base-128 number. -/
  | varint (value : Int)
  /-- A double. -/
  | double (value : Double)
  /-- Bytes. -/
  | bytes (value : List UInt8)
  /-- A text. -/
  | text (value : String)
  /-- A reference, which may be absent. -/
  | reference (index : Option Nat)
  /-- An answer. -/
  | flag (value : Bool)
  deriving DecidableEq, Repr, Inhabited

/-- Reads the item of a step. -/
def ReadStep.read : ReadStep → Read Item
  | byte => return .number (← Read.byte).toNat
  | bytes count => return .bytes (← Read.bytes count)
  | nat24 => return .number (← Read.nat24)
  | nat32 => return .number (← Read.nat32)
  | int32 => return .number (← Read.int32)
  | double => return .double (← Read.double)
  | unsigned => return .varint (← Read.unsigned)
  | signed => return .varint (← Read.signed)
  | text => return .text (← Read.text)
  | index e => return .number (← e.readIndex)
  | reference e => return .reference (← e.readReference)
  | integer e => return .number (← e.readInteger)
  | expectEnd label => do
    match (← get).expectEnd label with
    | .ok () => pure .nothing
    | .error error => Read.fail error
  | isAtEnd => return .flag (← get).isAtEnd

/-- A reader, and the readers that it was entered from, the innermost first. -/
structure ReaderStack where
  /-- The reader that steps run on. -/
  current : Reader
  /-- The readers around it. -/
  outer : List Reader := []
  deriving DecidableEq, Repr, Inhabited

namespace ReaderStack

/-- A step on a stack of readers. -/
inductive Step where
  /-- Reads an item. -/
  | read (step : ReadStep)
  /-- Reads a substream, and goes on inside it. -/
  | enter
  /-- Goes back to the reader around the current one, without any check. -/
  | leave
  deriving DecidableEq, Repr, Inhabited

/-- Runs a step. -/
def run (step : Step) (stack : ReaderStack) : Except DecodeError Item × ReaderStack :=
  match step with
  | .read step =>
    match step.read.run stack.current with
    | .ok item r => (.ok item, { stack with current := r })
    | .error error r => (.error error, { stack with current := r })
  | .enter =>
    match Read.substream.run stack.current with
    | .ok body r => (.ok .nothing, ⟨body, r :: stack.outer⟩)
    | .error error r => (.error error, { stack with current := r })
  | .leave =>
    match stack.outer with
    | r :: outer => (.ok .nothing, ⟨r, outer⟩)
    | [] => (.ok .nothing, stack)

/-- Runs steps one after another, whether they fail or not. -/
def runAll : List Step → ReaderStack → List (Except DecodeError Item) × ReaderStack
  | [], stack => ([], stack)
  | step :: steps, stack =>
    let next := stack.run step
    let rest := runAll steps next.2
    (next.1 :: rest.1, rest.2)

end ReaderStack

/-- Runs a read step where the tokens of a tag are. Fails without reading if the
tag has no stream. -/
def ReadStep.runUnder (step : ReadStep) (tag : Nat) (r : StreamReader) :
    Except DecodeError Item × StreamReader :=
  match r.route tag with
  | .error error => (.error error, r)
  | .ok reader =>
    match step.read.run reader with
    | .ok item rest => (.ok item, r.advance tag rest)
    | .error error rest => (.error error, r.advance tag rest)

namespace ReaderStack

/-- The outermost reader of a stack, which all others were entered from. -/
def base (stack : ReaderStack) : Reader := stack.outer.getLast?.getD stack.current

/-- Runs steps on the reader where the tokens of a tag are, and on those that are entered from
there. Fails without reading if the tag has no stream. -/
def runUnder (steps : List Step) (tag : Nat) (r : StreamReader) :
    List (Except DecodeError Item) × StreamReader :=
  match r.route tag with
  | .error error => ([.error error], r)
  | .ok reader =>
    let result := runAll steps ⟨reader, []⟩
    (result.1, r.advance tag result.2.base)

/-- Runs the steps of tokens one after another, each under its tag, whether they fail or not. -/
def runAllUnder : List (Nat × List Step) → StreamReader →
    List (List (Except DecodeError Item)) × StreamReader
  | [], r => ([], r)
  | token :: tokens, r =>
    let next := runUnder token.2 token.1 r
    let rest := runAllUnder tokens next.2
    (next.1 :: rest.1, rest.2)

end ReaderStack

namespace StreamReader

/-- Stores streams one after another, whether their tags repeat or not. -/
def insertAll :
    List (Nat × List UInt8) → StreamReader → List (Except DecodeError Unit) × StreamReader
  | [], r => ([], r)
  | stream :: streams, r =>
    let next := r.insert stream.1 (.ofBytes stream.2)
    let rest := insertAll streams next.2
    (next.1 :: rest.1, rest.2)

/-- A reader of the section that a writer holds, with the streams that it holds if there are any. -/
def ofWriter (enabled : Bool) (w : StreamWriter) :
    List (Except DecodeError Unit) × StreamReader :=
  insertAll w.filled { body := .ofBytes w.body.toList, streams := if enabled then some [] else none }

end StreamReader

end SyntaxPack
