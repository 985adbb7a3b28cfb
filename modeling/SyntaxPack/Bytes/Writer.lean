import SyntaxPack.Bytes.Fixed
import SyntaxPack.Double.Basic
import SyntaxPack.Error
import SyntaxPack.Varint
/-!
# SyntaxPack.Bytes.Writer

The bytes of every item of a module. Writing is pure: an item is a list of
bytes, or the reason why it cannot be written, and what follows another is
appended to it.

A substream is framed by its length on both ends, so that a reader can tell
truncation and splicing.
-/

namespace SyntaxPack

namespace Bytes

/-- A double, least significant byte first. -/
def ofDouble (d : Double) : List UInt8 := fixed 8 d.bits.toNat

/-- A text: the number of its bytes as a base-128 number, then the bytes. -/
def ofText (s : String) : List UInt8 :=
  let bytes := Utf8.encode s
  Varint.encodeUnsigned bytes.length ++ bytes

/-- A count in 32 bits. -/
def ofCount (label : String) (count : Nat) : Except EncodeError (List UInt8) :=
  if count < UInt32.size then .ok (fixed 4 count) else .error (.sectionTooLarge label count)

/-- A substream: its length, its bytes, and its length again. -/
def framed (label : String) (body : List UInt8) : Except EncodeError (List UInt8) := do
  let length ← ofCount label body.length
  .ok (length ++ body ++ length)

end Bytes

namespace IndexEncoding

/-- A token. Its value must not exceed what the encoding can carry. -/
def writeToken (e : IndexEncoding) (table : String) (value : Nat) :
    Except EncodeError (List UInt8) :=
  if e.maxToken < value then .error (.indexOverflow table value e)
  else
    .ok <| match e with
      | varint => Varint.encodeUnsigned value
      | fixed32 => Bytes.fixed 4 value
      | fixed24 => Bytes.fixed 3 value

/-- An index as it is. -/
def writeIndex (e : IndexEncoding) (table : String) (index : Nat) :
    Except EncodeError (List UInt8) :=
  e.writeToken table index

/-- A reference: one more than the index, or zero for none. -/
def writeReference (e : IndexEncoding) (table : String) (index : Option Nat) :
    Except EncodeError (List UInt8) :=
  e.writeToken table (index.elim 0 (· + 1))

/-- A 32-bit integer. -/
def writeInteger (e : IndexEncoding) (value : Int) : List UInt8 :=
  match e with
  | varint => Varint.encodeSigned value
  | fixed32 | fixed24 => Bytes.fixedSigned value

end IndexEncoding

end SyntaxPack
