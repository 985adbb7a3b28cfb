import SyntaxPack.Bytes.Writer
import SyntaxPack.Proofs.Double
import SyntaxPack.Proofs.Header
import SyntaxPack.Proofs.Utf8
/-!
# SyntaxPack.Proofs.Written

Every item is read back as it was written.

`Read.Takes read bytes a` says that `read` takes exactly `bytes` off the front of a
reader, whatever follows them, and returns `a`. Like the bounds on what a read consumes,
it is put together from the parts of an item. Only counts, substreams and tokens can fail
to be written, because a number is too large, and what they are otherwise is said first.
-/

namespace SyntaxPack

/-! ### What is too large -/

namespace Bytes

variable {label : String} {count : Nat} {body bytes : List UInt8} {error : EncodeError}

theorem ofCount_eq_ok_iff :
    ofCount label count = .ok bytes ↔ count < UInt32.size ∧ bytes = fixed 4 count := by
  rw [ofCount]
  split
  · simp [‹count < UInt32.size›, eq_comm]
  · simp [‹¬count < UInt32.size›]

theorem ofCount_eq_error_iff : ofCount label count = .error error ↔
    UInt32.size ≤ count ∧ error = .sectionTooLarge label count := by
  rw [ofCount]
  split
  · simp [Nat.not_le.mpr ‹count < UInt32.size›]
  · simp [Nat.le_of_not_lt ‹¬count < UInt32.size›, eq_comm]

theorem framed_eq_ok_iff : framed label body = .ok bytes ↔
    body.length < UInt32.size ∧ bytes = fixed 4 body.length ++ body ++ fixed 4 body.length := by
  rw [framed, bind_eq_ok]
  simp only [ofCount_eq_ok_iff, Except.ok.injEq]
  constructor
  · rintro ⟨_, ⟨hlt, rfl⟩, rfl⟩
    exact ⟨hlt, rfl⟩
  · rintro ⟨hlt, rfl⟩
    exact ⟨_, ⟨hlt, rfl⟩, rfl⟩

theorem framed_eq_error_iff : framed label body = .error error ↔
    UInt32.size ≤ body.length ∧ error = .sectionTooLarge label body.length := by
  rw [← ofCount_eq_error_iff, framed, bind_eq_error]
  simp

end Bytes

namespace IndexEncoding

variable {e : IndexEncoding} {label : String} {value : Nat} {bytes : List UInt8}
  {error : EncodeError}

/-- The bytes of a token that is not too large. -/
def tokenBytes (e : IndexEncoding) (value : Nat) : List UInt8 :=
  match e with
  | varint => Varint.encodeUnsigned value
  | fixed32 => Bytes.fixed 4 value
  | fixed24 => Bytes.fixed 3 value

theorem writeToken_eq_ok_iff :
    e.writeToken label value = .ok bytes ↔ value ≤ e.maxToken ∧ bytes = e.tokenBytes value := by
  simp only [writeToken]
  split
  · simp [Nat.not_le.mpr ‹e.maxToken < value›]
  · have hle : value ≤ e.maxToken := Nat.le_of_not_lt ‹¬e.maxToken < value›
    cases e <;> simp [hle, tokenBytes, eq_comm]

theorem writeToken_eq_error_iff : e.writeToken label value = .error error ↔
    e.maxToken < value ∧ error = .indexOverflow label value e := by
  simp only [writeToken]
  split
  · simp [‹e.maxToken < value›, eq_comm]
  · simp [‹¬e.maxToken < value›]

end IndexEncoding

namespace Read

variable {α β : Type}

/-- A read takes exactly these bytes off the front of a reader. -/
def Takes (read : Read α) (bytes : List UInt8) (a : α) : Prop :=
  ∀ (rest : List UInt8) (offset : Nat),
    read ⟨bytes ++ rest, offset⟩ = .ok a ⟨rest, offset + bytes.length⟩

theorem run_offset {r : Reader} : offset r = .ok r.offset r := rfl

theorem takes_pure (a : α) : Takes (pure a : Read α) [] a := by
  intro rest offset
  rfl

theorem Takes.bind {read : Read α} {next : α → Read β} {bytes bytes' : List UInt8} {a : α} {b : β}
    (hr : read.Takes bytes a) (hn : (next a).Takes bytes' b) :
    (read >>= next).Takes (bytes ++ bytes') b := by
  intro rest offset
  rw [List.append_assoc, run_bind_of_ok (hr (bytes' ++ rest) offset),
    hn rest (offset + bytes.length), List.length_append, Nat.add_assoc]

theorem Takes.map {read : Read α} {bytes : List UInt8} {a : α} (hr : read.Takes bytes a)
    (f : α → β) : Takes (do return f (← read)) bytes (f a) := by
  have h := @Takes.bind α β read (fun a => pure (f a)) bytes [] a (f a) hr (takes_pure (f a))
  rwa [List.append_nil] at h

/-- Items that are written one after another, each in a part of its own, are read one after
another. -/
theorem takes_replicate_parts {read : Read α} {parts : List (List UInt8)} {items : List α}
    (h : List.Forall₂ read.Takes parts items) :
    Takes (replicate items.length read) parts.flatten items := by
  suffices ∀ before : List α, Takes (replicate.go read items.length before) parts.flatten
      (before.reverse ++ items) from this []
  induction h with
  | nil =>
      intro before
      rw [List.append_nil]
      exact takes_pure before.reverse
  | @cons part a parts items hpart _ ih =>
      intro before
      have hrest := ih (a :: before)
      rw [List.reverse_cons, List.append_assoc, List.singleton_append] at hrest
      exact hpart.bind hrest

/-- Items whose bytes are known are read one after another. -/
theorem takes_replicate {read : Read α} {items : List α} {bytes : α → List UInt8}
    (h : ∀ a ∈ items, read.Takes (bytes a) a) :
    Takes (replicate items.length read) (items.flatMap bytes) items :=
  takes_replicate_parts (List.forall₂_map_left_iff.mpr (List.forall₂_same.mpr h))

/-! ### Numbers -/

theorem takes_bytes (bytes : List UInt8) : Takes (Read.bytes bytes.length) bytes bytes := by
  intro rest offset
  exact bytes_eq_ok_iff.mpr ⟨rfl, rfl, by rw [Reader.skip, List.drop_left]⟩

theorem takes_fixed {width n : Nat} (h : n < 256 ^ width) :
    Takes (fixed width) (Bytes.fixed width n) n := by
  have hnumber : Bytes.number (Bytes.fixed width n) = n := by
    rw [Bytes.number_fixed]
    exact Nat.mod_eq_of_lt h
  have hbytes := (takes_bytes (Bytes.fixed width n)).map Bytes.number
  rwa [hnumber, Bytes.length_fixed] at hbytes

theorem takes_nat32 {n : Nat} (h : n < UInt32.size) : Takes nat32 (Bytes.fixed 4 n) n :=
  takes_fixed h

theorem takes_nat24 {n : Nat} (h : n < 256 ^ 3) : Takes nat24 (Bytes.fixed 3 n) n := takes_fixed h

theorem takes_byte (b : UInt8) : Takes byte [b] b := by
  have hbyte : Takes byte (Bytes.fixed 1 b.toNat) b.toNat.toUInt8 :=
    Takes.map (takes_fixed (show b.toNat < 256 ^ 1 from b.toNat_lt)) Nat.toUInt8
  have hfixed : Bytes.fixed 1 b.toNat = [b] := by
    have hmod : b.toNat % 256 = b.toNat := Nat.mod_eq_of_lt b.toNat_lt
    simp [Bytes.fixed, hmod, Nat.toUInt8]
  rw [hfixed] at hbyte
  simpa [Nat.toUInt8] using hbyte

theorem takes_int32 {i : Int} (h : Double.isPayload i = true) :
    Takes int32 (Bytes.fixedSigned i) i := by
  obtain ⟨hlow, hhigh⟩ := Double.isPayload_iff.mp h
  have hsigned : Bytes.asSigned (i % 0x100000000).toNat = i := by
    rw [Bytes.asSigned]
    split <;> omega
  have hint := (takes_fixed (show (i % 0x100000000).toNat < 256 ^ 4 by omega)).map Bytes.asSigned
  rwa [hsigned] at hint

theorem takes_double (d : Double) : Takes double (Bytes.ofDouble d) d := by
  have hdouble := (takes_fixed (show d.bits.toNat < 256 ^ 8 from d.bits.toNat_lt)).map
    fun n => (⟨n.toUInt64⟩ : Double)
  have hbits : (⟨d.bits.toNat.toUInt64⟩ : Double) = d := by simp [Nat.toUInt64]
  rwa [hbits] at hdouble

/-- A base-128 number takes as many bytes as its groups. -/
theorem takes_varint {read : List UInt8 → Except Varint.Fault (α × List UInt8)}
    {bytes : List UInt8} {a : α} (h : ∀ rest, read (bytes ++ rest) = .ok (a, rest))
    (hgroups : ∀ {bytes rest : List UInt8} {a : α}, read bytes = .ok (a, rest) →
      Varint.groupCount bytes ≤ bytes.length ∧ rest = bytes.drop (Varint.groupCount bytes)) :
    Takes (varint read) bytes a := by
  intro rest offset
  obtain ⟨hle, hrest⟩ := hgroups (h rest)
  have hlength : Varint.groupCount (bytes ++ rest) = bytes.length := by
    have heq := congrArg List.length hrest
    rw [List.length_drop, List.length_append] at heq
    rw [List.length_append] at hle
    omega
  exact varint_eq_ok_iff.mpr ⟨rest, h rest, by rw [hlength]⟩

theorem takes_unsigned {n : Nat} (h : n < 2 ^ 64) : Takes unsigned (Varint.encodeUnsigned n) n :=
  takes_varint (Varint.readUnsigned_encodeUnsigned h) Varint.readUnsigned_rest

/-- An unsigned number that is read is the one that was written. -/
theorem eq_of_unsigned {n value : Nat} {bytes : List UInt8} {r rest : Reader}
    (hr : r.unread = Varint.encodeUnsigned n ++ bytes) (h : unsigned r = .ok value rest) :
    value = n := by
  obtain ⟨tail, hread, -⟩ := varint_eq_ok_iff.mp h
  rw [hr, Varint.readUnsigned_eq] at hread
  exact Varint.eq_of_readUnsignedWithin hread

theorem takes_signed {i : Int} (hlow : -2 ^ 63 ≤ i) (hhigh : i < 2 ^ 63) :
    Takes signed (Varint.encodeSigned i) i :=
  takes_varint (Varint.readSigned_encodeSigned hlow hhigh) Varint.readSigned_rest

/-! ### Texts and substreams -/

theorem takes_text {s : String} (h : (Utf8.encode s).length < 2 ^ 64) :
    Takes text (Bytes.ofText s) s := by
  intro rest offset
  have hlength := takes_unsigned h (Utf8.encode s ++ rest) offset
  have hbytes := takes_bytes (Utf8.encode s) rest
    (offset + (Varint.encodeUnsigned (Utf8.encode s).length).length)
  rw [Bytes.ofText, List.append_assoc, text, run_bind_of_ok hlength, run_bind_of_ok run_offset,
    run_bind_of_ok hbytes]
  simp only [Utf8.decode_utf8, run_pure, List.length_append, Nat.add_assoc]

/-- A substream is read as its bytes, wherever it starts. -/
theorem run_substream {label : String} {body bytes : List UInt8}
    (h : Bytes.framed label body = .ok bytes) (rest : List UInt8) (offset : Nat) :
    substream ⟨bytes ++ rest, offset⟩ =
      .ok ⟨body, offset + 4⟩ ⟨rest, offset + bytes.length⟩ := by
  obtain ⟨hlt, rfl⟩ := Bytes.framed_eq_ok_iff.mp h
  have hheader := takes_nat32 hlt (body ++ (Bytes.fixed 4 body.length ++ rest)) offset
  have hbody := takes_bytes body (Bytes.fixed 4 body.length ++ rest) (offset + 4)
  have hfooter := takes_nat32 hlt rest (offset + 4 + body.length)
  rw [Bytes.length_fixed] at hheader hfooter
  rw [List.append_assoc, List.append_assoc, substream, run_bind_of_ok run_offset,
    run_bind_of_ok hheader, run_bind_of_ok run_offset, run_bind_of_ok hbody, run_bind_of_ok hfooter]
  simp only [ne_eq, not_true, if_false, run_pure, List.length_append, Bytes.length_fixed,
    Nat.add_assoc]

end Read

/-! ### Tokens -/

namespace IndexEncoding

variable {e : IndexEncoding} {label : String} {bytes : List UInt8}

theorem takes_readToken {value : Nat} (h : e.writeToken label value = .ok bytes) :
    e.readToken.Takes bytes value := by
  obtain ⟨hle, rfl⟩ := writeToken_eq_ok_iff.mp h
  have hmax := e.maxToken_lt
  have hlt : value < UInt32.size := by omega
  cases e with
  | fixed32 => exact Read.takes_nat32 hlt
  | fixed24 =>
      refine Read.takes_nat24 ?_
      simp only [maxToken] at hle
      omega
  | varint =>
      intro rest offset
      have hread := Read.takes_unsigned (Nat.lt_trans hlt (by decide)) rest offset
      simp only [readToken]
      rw [tokenBytes, run_bind_of_ok Read.run_offset, run_bind_of_ok hread,
        if_neg (Nat.not_le.mpr hlt)]
      rfl

theorem takes_readIndex {index : Nat} (h : e.writeIndex label index = .ok bytes) :
    e.readIndex.Takes bytes index :=
  takes_readToken h

theorem takes_readReference {index : Option Nat} (h : e.writeReference label index = .ok bytes) :
    e.readReference.Takes bytes index := by
  intro rest offset
  have hread := takes_readToken h rest offset
  rw [readReference, run_bind_of_ok hread]
  cases index with
  | none => rfl
  | some i => rfl

theorem takes_readInteger {i : Int} (h : Double.isPayload i = true) :
    e.readInteger.Takes (e.writeInteger i) i := by
  cases e with
  | fixed32 | fixed24 => exact Read.takes_int32 h
  | varint =>
      obtain ⟨hlow, hhigh⟩ := Double.isPayload_iff.mp h
      intro rest offset
      have hread := Read.takes_signed (show -2 ^ 63 ≤ i by omega) (by omega) rest offset
      simp only [readInteger, writeInteger]
      rw [run_bind_of_ok Read.run_offset, run_bind_of_ok hread, if_pos h]
      rfl

/-- The number of bytes of a token. -/
def tokenSize (e : IndexEncoding) (value : Nat) : Nat :=
  match e with
  | varint => (Varint.encodeUnsigned value).length
  | fixed32 => 4
  | fixed24 => 3

theorem tokenSize_le {value value' : Nat} (h : value ≤ value') :
    e.tokenSize value ≤ e.tokenSize value' := by
  cases e with
  | varint => exact Varint.length_encodeUnsigned_le h
  | fixed32 | fixed24 => exact Nat.le_refl _

theorem tokenSize_eq_of_fixed (he : e ≠ .varint) (value value' : Nat) :
    e.tokenSize value = e.tokenSize value' := by
  cases e with
  | varint => exact absurd rfl he
  | fixed32 | fixed24 => rfl

theorem length_of_writeToken {value : Nat} (h : e.writeToken label value = .ok bytes) :
    bytes.length = e.tokenSize value := by
  obtain ⟨-, rfl⟩ := writeToken_eq_ok_iff.mp h
  cases e with
  | varint => rfl
  | fixed32 | fixed24 => exact Bytes.length_fixed _ _

/-- A token takes at least one byte. -/
theorem writeToken_ne_nil {value : Nat} (h : e.writeToken label value = .ok bytes) : bytes ≠ [] := by
  obtain ⟨-, rfl⟩ := writeToken_eq_ok_iff.mp h
  cases e with
  | varint => exact Varint.encodeUnsigned_ne_nil value
  | fixed32 | fixed24 => simp [tokenBytes, Bytes.fixed]

theorem writeInteger_ne_nil (e : IndexEncoding) (i : Int) : e.writeInteger i ≠ [] := by
  cases e with
  | varint => exact Varint.encodeSigned_ne_nil i
  | fixed32 | fixed24 => simp [writeInteger, Bytes.fixedSigned, Bytes.fixed]

end IndexEncoding

end SyntaxPack
