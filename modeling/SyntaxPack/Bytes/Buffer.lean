import SyntaxPack.Bytes.Writer
/-!
# SyntaxPack.Bytes.Buffer

Writing items into a buffer, in place.

Where `Bytes.Writer` says what the bytes of an item are, a `Write` changes a
buffer that is already there, byte by byte and part by part. What is in the
buffer stays in it when a later part fails, so a `Write` that must leave the
buffer alone on failure has to make its checks before its first byte: counts,
substreams and tokens are the items that do so.

A substream is written into a buffer of its own first. That buffer is then
checked and copied, or dropped.
-/

namespace SyntaxPack

/-- A program that writes into a buffer. The buffer is its state, and it is there
after a failure as well as after a success, with all that was written by then. -/
abbrev Write (α : Type) := EStateM EncodeError (List UInt8) α

namespace Write

variable {α : Type}

/-- Runs a program on a buffer, and returns what is in the buffer afterwards
whether the program succeeds or not. -/
def on (program : Write α) (buffer : List UInt8) : Except EncodeError α × List UInt8 :=
  match program buffer with
  | .ok a buffer => (.ok a, buffer)
  | .error error buffer => (.error error, buffer)

/-- Adds a byte to the end of the buffer. -/
def push (b : UInt8) : Write Unit := modify (· ++ [b])

/-- Adds bytes to the end of the buffer. -/
def put (bytes : List UInt8) : Write Unit := modify (· ++ bytes)

/-- Writes the low 24 bits of a number. -/
def nat24 (n : Nat) : Write Unit := put (Bytes.fixed 3 n)

/-- Writes a number in 32 bits. -/
def nat32 (n : Nat) : Write Unit := put (Bytes.fixed 4 n)

/-- Writes an integer in 32 bits. -/
def int32 (i : Int) : Write Unit := put (Bytes.fixedSigned i)

/-- Writes a double. -/
def double (d : Double) : Write Unit := put (Bytes.ofDouble d)

/-- Writes an unsigned base-128 number. Each of its bytes is added on its own. -/
def unsigned (n : Nat) : Write Unit := (Varint.encodeUnsigned n).forM push

/-- Writes a signed base-128 number. Each of its bytes is added on its own. -/
def signed (i : Int) : Write Unit := (Varint.encodeSigned i).forM push

/-- Writes a text, with the number of its bytes in front of them. -/
def text (s : String) : Write Unit := do
  unsigned (Utf8.encode s).length
  put (Utf8.encode s)

/-- Writes a count in 32 bits. Fails, before anything is written, if it has more. -/
def count (label : String) (n : Nat) : Write Unit :=
  if UInt32.size ≤ n then throw (.sectionTooLarge label n) else nat32 n

/-- Copies a buffer into the current one, between its length and its length again.
Fails, before anything is written, if the length has more than 32 bits. -/
def substream (label : String) (child : List UInt8) : Write Unit :=
  if UInt32.size ≤ child.length then throw (.sectionTooLarge label child.length)
  else do
    nat32 child.length
    put child
    nat32 child.length

/-- What a program writes into a buffer of its own. If it fails, that buffer is
dropped with all that is in it. The current one is not touched in either case. -/
def apart (program : Write Unit) : Write (List UInt8) := do
  let (result, child) := program.on []
  match result with
  | .ok () => return child
  | .error error => throw error

end Write

namespace IndexEncoding

/-- Writes a token. Fails, before anything is written, if its value exceeds what the
encoding can carry. -/
def putToken (e : IndexEncoding) (table : String) (value : Nat) : Write Unit :=
  if e.maxToken < value then throw (.indexOverflow table value e)
  else
    match e with
    | varint => Write.unsigned value
    | fixed32 => Write.nat32 value
    | fixed24 => Write.nat24 value

/-- Writes an index as it is. -/
def putIndex (e : IndexEncoding) (table : String) (index : Nat) : Write Unit :=
  e.putToken table index

/-- Writes a reference: one more than the index, or zero for none. -/
def putReference (e : IndexEncoding) (table : String) (index : Option Nat) : Write Unit :=
  e.putToken table (index.elim 0 (· + 1))

/-- Writes a 32-bit integer. -/
def putInteger (e : IndexEncoding) (value : Int) : Write Unit :=
  match e with
  | varint => Write.signed value
  | fixed32 | fixed24 => Write.int32 value

end IndexEncoding

end SyntaxPack
