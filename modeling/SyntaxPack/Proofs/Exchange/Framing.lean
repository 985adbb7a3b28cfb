import SyntaxPack.Module.Decode
import SyntaxPack.Proofs.Local
/-!
# SyntaxPack.Proofs.Exchange.Framing

The substreams of a module.

`segments` cuts the bytes of a module into its substreams and what stands between them:
the header, the directory, the number of value streams and their tag indices. It needs
no registry, since tags stand in a module by their names. It checks nothing that is
inside of substreams, except that it reads the names of the tags, which the labels of
the object tables are made from.
-/

namespace SyntaxPack

namespace Read

variable {α : Type}

/-- An item with the bytes that it takes. -/
def withBytes (read : Read α) : Read (α × List UInt8) := fun r =>
  match read r with
  | .ok a r' => .ok (a, r.unread.take (r.remaining - r'.remaining)) r'
  | .error error r' => .error error r'

/-- The bytes of an item are those that it takes off any reader. -/
theorem Local.run_withBytes {read : Read α} (h : read.Local) {r r' : Reader} {a : α}
    (hr : read r = .ok a r') :
    ∃ bytes, withBytes read r = .ok (a, bytes) r' ∧ r.unread = bytes ++ r'.unread ∧
      read.Takes bytes a := by
  obtain ⟨bytes, hbytes, htakes⟩ := h r a r' hr
  refine ⟨bytes, ?_, hbytes, htakes⟩
  have hlength : r.remaining - r'.remaining = bytes.length := by
    simp only [Reader.remaining, hbytes, List.length_append]
    omega
  simp only [withBytes, hr, hlength, hbytes, List.take_left]

end Read

/-- A part of a module. -/
inductive Segment where
  /-- Bytes outside of substreams. -/
  | plain (bytes : List UInt8)
  /-- A substream, between two copies of its length. -/
  | framed (label : String) (body : List UInt8)
  deriving DecidableEq, Repr

namespace Segment

/-- The bytes of a segment. -/
def bytes : Segment → List UInt8
  | plain bytes => bytes
  | framed _ body => Bytes.fixed 4 body.length ++ body ++ Bytes.fixed 4 body.length

@[simp] theorem bytes_plain (bs : List UInt8) : (plain bs).bytes = bs := rfl

/-- The bytes of segments one after another. -/
def unframe (segments : List Segment) : List UInt8 := segments.flatMap bytes

@[simp] theorem unframe_nil : unframe [] = [] := rfl

@[simp] theorem unframe_cons (segment : Segment) (segments : List Segment) :
    unframe (segment :: segments) = segment.bytes ++ unframe segments := rfl

@[simp] theorem unframe_append (segments more : List Segment) :
    unframe (segments ++ more) = unframe segments ++ unframe more := List.flatMap_append

end Segment

namespace Module

open Read Segment

/-! ### Cutting a module into its segments

The order of the parts is that of the decoder. Labels are given to the substreams as the decoder
gives them, so an error of the decoder can be compared with the segment that it is about. -/

/-- The label of a value stream. -/
def streamLabel (tag : Nat) : String := s!"value stream #{tag}"

/-- The next substream. -/
def readFramed (label : String) : Read Segment := return .framed label (← Read.substream).unread

/-- The names in a tag table, none if they cannot be read. -/
def namesIn (count : Nat) (table : Reader) : List String :=
  match (do let _ ← Read.nat32; Read.replicate count Read.text : Read (List String)) table with
  | .ok names _ => names
  | .error _ _ => []

/-- The part of a module that tells what is in the rest. -/
structure Opening where
  /-- The layout. -/
  wire : WireFormat
  /-- The number of entries of every table. -/
  directory : Directory
  /-- The names of the tags. -/
  names : List String
  /-- The segments up to the tag table. -/
  segments : List Segment

/-- The header, the directory and the tag table. -/
def readOpening : Read Opening := do
  let (wire, header) ← withBytes readHeader
  let (directory, counts) ← withBytes (readDirectory wire)
  let table ← Read.substream
  pure
    { wire := wire, directory := directory, names := namesIn directory.tags table,
      segments := [.plain header, .plain counts, .framed "tags" table.unread] }

/-- A value stream, after the index of its tag. -/
def readStreamSegments : Read (List Segment) := do
  let (tag, index) ← withBytes Read.nat32
  return [.plain index, ← readFramed (streamLabel tag)]

/-- The value streams, after their number, if the layout has them. -/
def readStreamsSegments (valueStreams : Bool) : Read (List Segment) :=
  if valueStreams then do
    let (count, number) ← withBytes Read.nat32
    let streams ← Read.replicate count readStreamSegments
    pure (.plain number :: streams.flatten)
  else pure []

/-- The substreams behind the value streams, given the labels of the object tables. -/
def readNodeSegments (labels : List String) : Read (List Segment) := do
  let tables ← labels.mapM readFramed
  let arrays ← readFramed "arrays"
  let root ← readFramed "root"
  pure (tables ++ [arrays, root])

/-- What stands behind the strings. -/
def readBodySegments (valueStreams : Bool) (labels : List String) : Read (List Segment) := do
  let streams ← readStreamsSegments valueStreams
  return streams ++ (← readNodeSegments labels)

/-- The label of an object table in a directory. -/
def tableLabel (names : List String) : Option Nat × Nat → String
  | (none, _) => ObjectTables.sharedLabel
  | (some index, _) => ObjectTables.labelOf (names[index]?.getD "")

/-- All segments. -/
def readSegments : Read (List Segment) := do
  let opening ← readOpening
  let strings ← readFramed "strings"
  let labels := opening.directory.objects.entries.map (tableLabel opening.names)
  let body ← readBodySegments opening.wire.valueStreams labels
  pure (opening.segments ++ strings :: body)

/-- The segments of a module, if it can be cut into segments. -/
def segments (bytes : List UInt8) : Option (List Segment) :=
  match readSegments (.ofBytes bytes) with
  | .ok segments _ => some segments
  | .error _ _ => none

/-- The names in the tag table of a module, none if there is no tag table. -/
def tagNames (bytes : List UInt8) : List String :=
  match readOpening (.ofBytes bytes) with
  | .ok opening _ => opening.names
  | .error _ _ => []

/-! ### Substreams

A segment with a frame and a substream of the decoder are the same bytes. -/

/-- A substream that is read is one of the segments. -/
theorem run_readFramed {r r' body : Reader} (h : Read.substream r = .ok body r') (label : String) :
    readFramed label r = .ok (.framed label body.unread) r' ∧
      body.unread.length < UInt32.size ∧
      r.unread = (Segment.framed label body.unread).bytes ++ r'.unread := by
  obtain ⟨hlt, hunread⟩ := unread_of_substream h
  refine ⟨?_, hlt, hunread⟩
  rw [readFramed, run_bind_of_ok h]
  rfl

/-- The bytes of a substream are those that are written for it. -/
theorem framed_eq_ok {body : List UInt8} (h : body.length < UInt32.size) (label : String) :
    Bytes.framed label body = .ok (Segment.framed label body).bytes :=
  Bytes.framed_eq_ok_iff.mpr ⟨h, rfl⟩

/-- A segment is read as a substream. -/
theorem run_substream_segment {body : List UInt8} (h : body.length < UInt32.size) (label : String)
    (rest : List UInt8) (offset : Nat) :
    Read.substream ⟨(Segment.framed label body).bytes ++ rest, offset⟩ =
      .ok ⟨body, offset + 4⟩ ⟨rest, offset + (Segment.framed label body).bytes.length⟩ :=
  run_substream (framed_eq_ok h label) rest offset

/-! ### The bytes of segments

Nothing is lost and nothing is added by cutting: `Unframes` is kept by each of the readers above. -/

/-- Segments are the bytes that they were cut from. -/
def Unframes {α : Type} (read : Read α) (parts : α → List Segment) : Prop :=
  ∀ (r r' : Reader) (a : α), read r = .ok a r' → r.unread = unframe (parts a) ++ r'.unread

theorem unframes_withBytes {α : Type} {read : Read α} (h : read.Local) :
    Unframes (withBytes read) fun item => [.plain item.2] := by
  intro r r' item hr
  obtain ⟨a, bytes⟩ := item
  cases hread : read r with
  | error e t => simp [withBytes, hread] at hr
  | ok b t =>
      obtain ⟨used, hused, hunread, -⟩ := h.run_withBytes hread
      obtain ⟨⟨rfl, rfl⟩, rfl⟩ : (b = a ∧ used = bytes) ∧ t = r' := by
        simpa using hused.symm.trans hr
      simpa using hunread

theorem unframes_readFramed (label : String) : Unframes (readFramed label) ([·]) := by
  intro r r' segment hr
  obtain ⟨body, t, hread, h₁⟩ := run_bind_eq_ok.mp hr
  obtain ⟨rfl, rfl⟩ := run_pure_eq_ok.mp h₁
  simpa using (run_readFramed hread label).2.2

theorem unframes_readOpening : Unframes readOpening Opening.segments := by
  intro r r' opening hr
  obtain ⟨⟨wire, header⟩, s, hheader, h₁⟩ := run_bind_eq_ok.mp hr
  obtain ⟨⟨directory, counts⟩, t, hcounts, h₂⟩ := run_bind_eq_ok.mp h₁
  obtain ⟨table, u, htable, h₃⟩ := run_bind_eq_ok.mp h₂
  obtain ⟨rfl, rfl⟩ := run_pure_eq_ok.mp h₃
  rw [unframes_withBytes local_readHeader _ _ _ hheader,
    unframes_withBytes (local_readDirectory wire) _ _ _ hcounts, (run_readFramed htable "tags").2.2]
  simp

theorem unframes_readStreamSegments : Unframes readStreamSegments id := by
  intro r r' segments hr
  obtain ⟨⟨tag, index⟩, s, hindex, h₁⟩ := run_bind_eq_ok.mp hr
  obtain ⟨stream, t, hstream, h₂⟩ := run_bind_eq_ok.mp h₁
  obtain ⟨rfl, rfl⟩ := run_pure_eq_ok.mp h₂
  rw [unframes_withBytes local_nat32 _ _ _ hindex, unframes_readFramed _ _ _ _ hstream]
  simp

theorem unframes_replicate {α : Type} {read : Read α} {parts : α → List Segment}
    (h : Unframes read parts) (count : Nat) :
    Unframes (Read.replicate count read) (·.flatMap parts) := by
  suffices ∀ (more : Nat) (done items : List α) (r r' : Reader),
      Read.replicate.go read more done r = .ok items r' →
      unframe (done.reverse.flatMap parts) ++ r.unread =
        unframe (items.flatMap parts) ++ r'.unread by
    intro r r' items hr
    simpa using this count [] items r r' hr
  intro more
  induction more with
  | zero =>
      intro done items r r' hr
      obtain ⟨rfl, rfl⟩ := run_pure_eq_ok.mp hr
      rfl
  | succ more ih =>
      intro done items r r' hr
      obtain ⟨a, s, hread, hrest⟩ := run_bind_eq_ok.mp hr
      rw [← ih (a :: done) items s r' hrest, h r s a hread]
      simp

theorem unframes_readStreamsSegments (valueStreams : Bool) :
    Unframes (readStreamsSegments valueStreams) id := by
  intro r r' segments hr
  simp only [readStreamsSegments] at hr
  split at hr
  · obtain ⟨⟨count, number⟩, s, hcount, h₁⟩ := run_bind_eq_ok.mp hr
    obtain ⟨streams, t, hstreams, h₂⟩ := run_bind_eq_ok.mp h₁
    obtain ⟨rfl, rfl⟩ := run_pure_eq_ok.mp h₂
    rw [unframes_withBytes local_nat32 _ _ _ hcount,
      unframes_replicate unframes_readStreamSegments count _ _ _ hstreams]
    simp
  · obtain ⟨rfl, rfl⟩ := run_pure_eq_ok.mp hr
    rfl

theorem unframes_readNodeSegments (labels : List String) :
    Unframes (readNodeSegments labels) id := by
  intro r r' segments hr
  obtain ⟨tables, s, htables, h₁⟩ := run_bind_eq_ok.mp hr
  obtain ⟨arrays, t, harrays, h₂⟩ := run_bind_eq_ok.mp h₁
  obtain ⟨root, u, hroot, h₃⟩ := run_bind_eq_ok.mp h₂
  obtain ⟨rfl, rfl⟩ := run_pure_eq_ok.mp h₃
  have hall : r.unread = unframe tables ++ s.unread :=
    run_mapM_induction (motive := fun _ done t => r.unread = unframe done ++ t.unread) htables rfl
      fun _ done label segment t u _ hdone hsegment => by
        rw [hdone, unframes_readFramed label _ _ _ hsegment]
        simp
  rw [hall, unframes_readFramed _ _ _ _ harrays, unframes_readFramed _ _ _ _ hroot]
  simp

theorem unframes_readBodySegments (valueStreams : Bool) (labels : List String) :
    Unframes (readBodySegments valueStreams labels) id := by
  intro r r' segments hr
  obtain ⟨streams, s, hstreams, h₁⟩ := run_bind_eq_ok.mp hr
  obtain ⟨nodes, t, hnodes, h₂⟩ := run_bind_eq_ok.mp h₁
  obtain ⟨rfl, rfl⟩ := run_pure_eq_ok.mp h₂
  rw [unframes_readStreamsSegments _ _ _ _ hstreams, unframes_readNodeSegments _ _ _ _ hnodes]
  simp

/-- The segments of a module are its bytes. -/
theorem unframes_readSegments : Unframes readSegments id := by
  intro r r' segments hr
  obtain ⟨opening, s, hopening, h₁⟩ := run_bind_eq_ok.mp hr
  obtain ⟨strings, t, hstrings, h₂⟩ := run_bind_eq_ok.mp h₁
  obtain ⟨body, u, hbody, h₃⟩ := run_bind_eq_ok.mp h₂
  obtain ⟨rfl, rfl⟩ := run_pure_eq_ok.mp h₃
  rw [unframes_readOpening _ _ _ hopening, unframes_readFramed _ _ _ _ hstrings,
    unframes_readBodySegments _ _ _ _ _ hbody]
  simp

end Module

end SyntaxPack
