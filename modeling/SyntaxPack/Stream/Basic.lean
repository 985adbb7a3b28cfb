import SyntaxPack.Bytes.Reader
import SyntaxPack.Stream.TagMap
/-!
# SyntaxPack.Stream.Basic

Value streams: one byte stream per tag.

Without value streams every token stands in the section that is being written.
With them a token goes into the stream of its tag, where it stands next to
tokens of its own kind, and the streams are stored ahead of the sections. The
two sides of this are `StreamWriter` and `StreamReader`; both hold the current
section and, if the layout has them, the streams.
-/

namespace SyntaxPack

/-! ### Writing -/

/-- The section being written, and the value streams if the layout has them. -/
structure StreamWriter where
  /-- The bytes of the section. -/
  body : Array UInt8 := #[]
  /-- The bytes of the stream of each tag. -/
  streams : Option (TagMap (Array UInt8)) := none
  deriving Repr, Inhabited

namespace StreamWriter

/-- An empty section, with value streams or without. -/
def start (enabled : Bool) : StreamWriter := { streams := if enabled then some [] else none }

/-- Writes bytes that stand in the section whatever the layout. -/
def put (w : StreamWriter) (bytes : List UInt8) : StreamWriter :=
  { w with body := w.body ++ bytes }

/-- Writes a token of a tag: into the stream of the tag, or into the section if
there are no streams. -/
def putUnder (w : StreamWriter) (tag : Nat) (bytes : List UInt8) : StreamWriter :=
  match w.streams with
  | none => w.put bytes
  | some map => { w with streams := some (map.insert tag ((map.find? tag).getD #[] ++ bytes)) }

/-- The bytes that are where the tokens of a tag go: none in a stream that no token
has been sent to. -/
def bytesUnder (w : StreamWriter) (tag : Nat) : List UInt8 :=
  match w.streams with
  | none => w.body.toList
  | some map => ((map.find? tag).getD #[]).toList

/-- Sets the bytes that are where the tokens of a tag go. With value streams the tag
has a stream from then on. -/
def setUnder (w : StreamWriter) (tag : Nat) (bytes : List UInt8) : StreamWriter :=
  match w.streams with
  | none => { w with body := bytes.toArray }
  | some map => { w with streams := some (map.insert tag bytes.toArray) }

/-- The number of bytes where the tokens of a tag go. -/
def lengthUnder (w : StreamWriter) (tag : Nat) : Nat :=
  match w.streams with
  | none => w.body.size
  | some map => ((map.find? tag).getD #[]).size

/-- What is set under a tag is there, and the bytes under every other tag are what they were. -/
theorem bytesUnder_setUnder_of_some {w : StreamWriter} {map : TagMap (Array UInt8)}
    (h : w.streams = some map) (tag key : Nat) (bytes : List UInt8) :
    (w.setUnder tag bytes).bytesUnder key = if key = tag then bytes else w.bytesUnder key := by
  simp only [setUnder, bytesUnder, h, TagMap.find?_insert]
  split <;> rfl

/-- Without value streams the bytes under every tag are those of the section. -/
theorem bytesUnder_setUnder_of_none {w : StreamWriter} (h : w.streams = none) (tag key : Nat)
    (bytes : List UInt8) : (w.setUnder tag bytes).bytesUnder key = bytes := by
  simp only [setUnder, bytesUnder, h]

/-- A token is added behind the bytes that are under its tag. -/
theorem setUnder_append (w : StreamWriter) (tag : Nat) (bytes : List UInt8) :
    w.setUnder tag (w.bytesUnder tag ++ bytes) = w.putUnder tag bytes := by
  have happend : ∀ old : Array UInt8, (old.toList ++ bytes).toArray = old ++ bytes :=
    fun old => Array.ext' (by rw [Array.toList_appendList])
  cases h : w.streams with
  | none => simp only [setUnder, bytesUnder, putUnder, put, h, happend]
  | some map => simp only [setUnder, bytesUnder, putUnder, h, happend]

/-- Setting the bytes that are under a tag already changes no bytes. -/
theorem bytesUnder_setUnder_self (w : StreamWriter) (tag key : Nat) :
    (w.setUnder tag (w.bytesUnder tag)).bytesUnder key = w.bytesUnder key := by
  cases h : w.streams with
  | none =>
    rw [bytesUnder_setUnder_of_none h]
    simp only [bytesUnder, h]
  | some map =>
    rw [bytesUnder_setUnder_of_some h]
    split
    · rw [‹key = tag›]
    · rfl

/-- The streams that hold anything, in increasing order of their tags. -/
def filled (w : StreamWriter) : List (Nat × List UInt8) :=
  ((w.streams.getD []).map fun (tag, bytes) => (tag, bytes.toList)).filter (!·.2.isEmpty)

end StreamWriter

/-! ### Reading -/

/-- The section being read, and the value streams if the layout has them. -/
structure StreamReader where
  /-- The unread part of the section. -/
  body : Reader
  /-- The unread part of the stream of each tag. -/
  streams : Option (TagMap Reader) := none
  deriving Repr, Inhabited

namespace StreamReader

/-- Stores the stream of a tag. A tag has at most one stream; a second one takes
the place of the first before it is reported. -/
def insert (r : StreamReader) (tag : Nat) (stream : Reader) :
    Except DecodeError Unit × StreamReader :=
  let map := r.streams.getD []
  let result := if (map.find? tag).isSome then .error (.valueStream tag .repeated) else .ok ()
  (result, { r with streams := some (map.insert tag stream) })

/-- Where the tokens of a tag are read from. -/
def route (r : StreamReader) (tag : Nat) : Except DecodeError Reader :=
  match r.streams with
  | none => .ok r.body
  | some map =>
    match map.find? tag with
    | some stream => .ok stream
    | none => .error (.valueStream tag .undeclared)

/-- Sets what is unread where the tokens of a tag are read from. -/
def advance (r : StreamReader) (tag : Nat) (unread : Reader) : StreamReader :=
  match r.streams with
  | none => { r with body := unread }
  | some map => { r with streams := some (map.insert tag unread) }

/-- Fails unless every stream has been read to its end. -/
def expectEnd (r : StreamReader) : Except DecodeError Unit :=
  (r.streams.getD []).forM fun (tag, stream) => stream.expectEnd s!"value stream #{tag}"

/-- The number of unread bytes in the section and all streams. -/
def unread (r : StreamReader) : Nat :=
  r.body.remaining + ((r.streams.getD []).map (·.2.remaining)).foldr (· + ·) 0

end StreamReader

end SyntaxPack
