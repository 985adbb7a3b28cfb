import Mathlib.Algebra.Ring.Nat
import SyntaxPack.Bytes.Reader
import SyntaxPack.Proofs.Groups
/-!
# SyntaxPack.Proofs.Reader

Every item is read off the front of a reader.

`Read.Consumes read n` says that a successful run of `read` moves the reader
forward by at least `n` bytes and never past its end. The combinators of `Read`
add such bounds up, so that the bound of an item follows from those of its parts.
-/

namespace SyntaxPack

namespace Reader

/-- The reader after `n` more bytes. -/
def skip (r : Reader) (n : Nat) : Reader := ⟨r.unread.drop n, r.offset + n⟩

@[simp] theorem skip_zero (r : Reader) : r.skip 0 = r := rfl

theorem skip_skip (r : Reader) (m n : Nat) : (r.skip m).skip n = r.skip (m + n) := by
  simp only [skip, List.drop_drop, Nat.add_assoc]

@[simp] theorem remaining_skip (r : Reader) (n : Nat) :
    (r.skip n).remaining = r.remaining - n := by
  simp only [remaining, skip, List.length_drop]

end Reader

namespace Bytes

theorem splitFront_eq_none_iff {n : Nat} {bytes : List UInt8} :
    splitFront n bytes = none ↔ bytes.length < n := by
  constructor
  · intro h
    by_contra hle
    have hsplit : splitFront n bytes = some (bytes.take n, bytes.drop n) :=
      splitFront_eq_some_iff.mpr ⟨(List.take_append_drop n bytes).symm,
        List.length_take_of_le (Nat.le_of_not_lt hle)⟩
    simp [h] at hsplit
  · intro h
    cases hsplit : splitFront n bytes with
    | none => rfl
    | some parts =>
        obtain ⟨hbytes, hlength⟩ := splitFront_eq_some_iff.mp hsplit
        have := congrArg List.length hbytes
        rw [List.length_append] at this
        omega

end Bytes

namespace Read

variable {α β : Type}

/-- A successful run takes at least `n` bytes off the front of a reader. -/
def Consumes (read : Read α) (n : Nat) : Prop :=
  ∀ (r : Reader) (a : α) (r' : Reader), read r = .ok a r' →
    ∃ k, n ≤ k ∧ k ≤ r.remaining ∧ r' = r.skip k

/-- A reader is shorter after a successful run. -/
theorem Consumes.remaining_add_le {read : Read α} {n : Nat} (h : read.Consumes n)
    {r r' : Reader} {a : α} (hr : read r = .ok a r') : r'.remaining + n ≤ r.remaining := by
  obtain ⟨k, hn, hk, rfl⟩ := h _ _ _ hr
  rw [Reader.remaining_skip]
  omega

theorem Consumes.mono {read : Read α} {m n : Nat} (h : read.Consumes n) (hm : m ≤ n) :
    read.Consumes m := by
  intro r a r' hr
  obtain ⟨k, hn, hk, rfl⟩ := h _ _ _ hr
  exact ⟨k, Nat.le_trans hm hn, hk, rfl⟩

/-! ### Combinators -/

@[simp] theorem run_fail {error : DecodeError} {r : Reader} :
    (fail error : Read α) r = .error error r := rfl

theorem run_fail_bind {error : DecodeError} {next : α → Read β} {r : Reader} :
    (fail error >>= next) r = .error error r := rfl

theorem consumes_pure (a : α) : Consumes (pure a : Read α) 0 := by
  intro r b r' h
  obtain ⟨-, rfl⟩ := run_pure_eq_ok.mp h
  exact ⟨0, Nat.le_refl _, Nat.zero_le _, r.skip_zero.symm⟩

theorem consumes_fail (error : DecodeError) (n : Nat) : Consumes (fail error : Read α) n := by
  intro r b r' h
  simp at h

theorem Consumes.bind {read : Read α} {next : α → Read β} {m n : Nat} (hr : read.Consumes m)
    (hn : ∀ a, (next a).Consumes n) : (read >>= next).Consumes (m + n) := by
  intro r b r' h
  obtain ⟨a, t, hread, hnext⟩ := run_bind_eq_ok.mp h
  obtain ⟨j, hmj, hj, rfl⟩ := hr _ _ _ hread
  obtain ⟨k, hnk, hk, rfl⟩ := hn a _ _ _ hnext
  rw [Reader.remaining_skip] at hk
  exact ⟨j + k, by omega, by omega, Reader.skip_skip r j k⟩

/-- What follows an item is left out of account. -/
theorem Consumes.bind_left {read : Read α} {next : α → Read β} {n : Nat} (hr : read.Consumes n)
    (hn : ∀ a, (next a).Consumes 0) : (read >>= next).Consumes n :=
  hr.bind hn

/-- What precedes an item is left out of account. -/
theorem Consumes.bind_right {read : Read α} {next : α → Read β} {n : Nat} (hr : read.Consumes 0)
    (hn : ∀ a, (next a).Consumes n) : (read >>= next).Consumes n := by
  simpa using hr.bind hn

theorem consumes_offset : Consumes offset 0 := by
  intro r a r' h
  simp only [offset, EStateM.Result.ok.injEq] at h
  exact ⟨0, Nat.le_refl _, Nat.zero_le _, h.2 ▸ r.skip_zero.symm⟩

theorem consumes_get : Consumes (get : Read Reader) 0 := by
  intro r a r' h
  simp only [run_get, EStateM.Result.ok.injEq] at h
  exact ⟨0, Nat.le_refl _, Nat.zero_le _, h.2 ▸ r.skip_zero.symm⟩

theorem consumes_ite {p : Prop} [Decidable p] {x y : Read α} {n : Nat} (hx : x.Consumes n)
    (hy : y.Consumes n) : (if p then x else y).Consumes n := by
  split
  · exact hx
  · exact hy

theorem consumes_replicate {read : Read α} {n : Nat} (h : read.Consumes n) (count : Nat) :
    (replicate count read).Consumes (count * n) := by
  suffices ∀ items, (replicate.go read count items).Consumes (count * n) from this []
  induction count with
  | zero => exact fun items => (consumes_pure items.reverse).mono (by omega)
  | succ count ih =>
      intro items
      have hmore := h.bind fun a => ih (a :: items)
      exact hmore.mono (by rw [Nat.succ_mul]; omega)

/-! ### Items -/

theorem bytes_eq_ok_iff {n : Nat} {r r' : Reader} {bs : List UInt8} : bytes n r = .ok bs r' ↔
    r.unread = bs ++ r'.unread ∧ bs.length = n ∧ r' = r.skip n := by
  constructor
  · intro h
    simp only [bytes] at h
    split at h
    · rename_i front rest hsplit
      obtain ⟨hunread, hlength⟩ := Bytes.splitFront_eq_some_iff.mp hsplit
      obtain ⟨rfl, rfl⟩ := EStateM.Result.ok.inj h
      refine ⟨hunread, hlength, ?_⟩
      rw [Reader.skip, hunread, ← hlength, List.drop_left]
    · simp at h
  · rintro ⟨hunread, hlength, rfl⟩
    have hsplit := Bytes.splitFront_eq_some_iff.mpr ⟨hunread, hlength⟩
    simp only [bytes, hsplit]
    rfl

theorem bytes_eq_error_iff {n : Nat} {r r' : Reader} {error : DecodeError} :
    bytes n r = .error error r' ↔ r.remaining < n ∧ error = r.tooShort n ∧ r' = r := by
  rw [Reader.remaining, ← Bytes.splitFront_eq_none_iff, bytes]
  split
  · simp [‹Bytes.splitFront n r.unread = some _›]
  · simp [‹Bytes.splitFront n r.unread = none›, eq_comm]

theorem consumes_bytes (n : Nat) : Consumes (bytes n) n := by
  intro r a r' h
  obtain ⟨hunread, hlength, hskip⟩ := bytes_eq_ok_iff.mp h
  exact ⟨n, Nat.le_refl _, by simp [Reader.remaining, hunread, hlength], hskip⟩

theorem consumes_fixed (width : Nat) : Consumes (fixed width) width :=
  (consumes_bytes width).bind_left fun _ => consumes_pure _

theorem consumes_byte : Consumes byte 1 :=
  (consumes_fixed 1).bind_left fun _ => consumes_pure _

theorem consumes_nat32 : Consumes nat32 4 := consumes_fixed 4

theorem consumes_double : Consumes double 8 :=
  (consumes_fixed 8).bind_left fun _ => consumes_pure _

theorem consumes_int32 : Consumes int32 4 :=
  (consumes_fixed 4).bind_left fun _ => consumes_pure _

theorem varint_eq_ok_iff {read : List UInt8 → Except Varint.Fault (α × List UInt8)}
    {r r' : Reader} {a : α} : varint read r = .ok a r' ↔ ∃ rest, read r.unread = .ok (a, rest) ∧
      r' = ⟨rest, r.offset + Varint.groupCount r.unread⟩ := by
  rw [varint]
  split
  · simp [‹read r.unread = .ok _›, eq_comm]
  · simp [‹read r.unread = .error _›]

theorem varint_eq_error_iff {read : List UInt8 → Except Varint.Fault (α × List UInt8)}
    {r r' : Reader} {error : DecodeError} : varint read r = .error error r' ↔
      ∃ fault, read r.unread = .error fault ∧ error = varintError r fault ∧ r' = r := by
  rw [varint]
  split
  · simp [‹read r.unread = .ok _›]
  · simp [‹read r.unread = .error _›, eq_comm]

/-- A base-128 number ends within the bytes that are there. -/
theorem consumes_varint {read : List UInt8 → Except Varint.Fault (α × List UInt8)}
    (h : ∀ {bytes rest value}, read bytes = .ok (value, rest) →
      Varint.groupCount bytes ≤ bytes.length ∧ rest = bytes.drop (Varint.groupCount bytes)) :
    Consumes (varint read) 1 := by
  intro r a r' hr
  obtain ⟨rest, hread, rfl⟩ := varint_eq_ok_iff.mp hr
  obtain ⟨hcount, hrest⟩ := h hread
  refine ⟨Varint.groupCount r.unread, ?_, hcount, ?_⟩
  · rw [Varint.groupCount]
    omega
  · rw [Reader.skip, hrest]

end Read

/-- An integer token holds the integers of 32 bits. -/
theorem Double.isPayload_iff {i : Int} :
    Double.isPayload i = true ↔ -0x80000000 ≤ i ∧ i < 0x80000000 := by
  simp [Double.isPayload]

namespace Bytes

/-- A number in a fixed number of bytes is below the bound of its width. -/
theorem number_lt (bytes : List UInt8) : number bytes < 256 ^ bytes.length := by
  induction bytes with
  | nil => simp [number]
  | cons b bytes ih =>
      have hb : b.toNat < 256 := b.toNat_lt
      simp only [number, List.length_cons, Nat.pow_succ']
      omega

end Bytes

namespace Read

theorem consumes_unsigned : Consumes unsigned 1 := consumes_varint Varint.readUnsigned_rest

theorem consumes_signed : Consumes signed 1 := consumes_varint Varint.readSigned_rest

theorem consumes_text : Consumes text 1 := by
  refine consumes_unsigned.bind_left fun length => consumes_offset.bind_right fun start =>
    ((consumes_bytes length).mono (Nat.zero_le _)).bind_right fun bytes => ?_
  split
  · exact consumes_pure _
  · exact consumes_fail _ 0

/-- A run of bytes has the length that was asked for. -/
theorem length_of_bytes {n : Nat} {r r' : Reader} {bs : List UInt8}
    (h : bytes n r = .ok bs r') : bs.length = n :=
  (bytes_eq_ok_iff.mp h).2.1

/-- A substream is its length, its bytes and its length again. -/
theorem substream_eq_ok {r r' body : Reader} (h : substream r = .ok body r') :
    ∃ r₁ r₂, nat32 r = .ok body.remaining r₁ ∧ bytes body.remaining r₁ = .ok body.unread r₂ ∧
      nat32 r₂ = .ok body.remaining r' := by
  simp only [substream, run_bind_eq_ok] at h
  obtain ⟨start, r0, hstart, header, r1, hheader, origin, r2, horigin, bytes, r3, hbytes,
    footer, r4, hfooter, h⟩ := h
  simp only [offset, EStateM.Result.ok.injEq] at hstart horigin
  obtain ⟨-, rfl⟩ := hstart
  obtain ⟨-, rfl⟩ := horigin
  split at h
  · simp only [run_fail_bind, reduceCtorEq] at h
  · rename_i hlengths
    obtain rfl := not_ne_iff.mp hlengths
    obtain ⟨rfl, rfl⟩ := run_pure_eq_ok.mp h
    obtain rfl := length_of_bytes hbytes
    exact ⟨r1, r3, hheader, hbytes, hfooter⟩

/-- A substream takes its two lengths and its bytes. -/
theorem remaining_of_substream {r r' body : Reader} (h : substream r = .ok body r') :
    r'.remaining + body.remaining + 8 ≤ r.remaining := by
  obtain ⟨r₁, r₂, hheader, hbytes, hfooter⟩ := substream_eq_ok h
  have h₁ := consumes_nat32.remaining_add_le hheader
  have h₂ := (consumes_bytes body.remaining).remaining_add_le hbytes
  have h₃ := consumes_nat32.remaining_add_le hfooter
  omega

end Read

namespace IndexEncoding

open Read

theorem consumes_readToken (e : IndexEncoding) : e.readToken.Consumes 1 := by
  cases e with
  | varint =>
      refine consumes_offset.bind_right fun start => consumes_unsigned.bind_left fun value => ?_
      split
      · exact (consumes_fail _ 0).bind fun _ => consumes_pure _
      · exact consumes_pure _
  | fixed32 => exact (consumes_fixed 4).mono (by omega)
  | fixed24 => exact (consumes_fixed 3).mono (by omega)

theorem consumes_readIndex (e : IndexEncoding) : e.readIndex.Consumes 1 := e.consumes_readToken

theorem consumes_readReference (e : IndexEncoding) : e.readReference.Consumes 1 := by
  refine e.consumes_readToken.bind_left fun token => ?_
  split
  · exact consumes_pure _
  · exact consumes_pure _

theorem consumes_readInteger (e : IndexEncoding) : e.readInteger.Consumes 1 := by
  cases e with
  | varint =>
      refine consumes_offset.bind_right fun start => consumes_signed.bind_left fun value => ?_
      split
      · exact consumes_pure _
      · exact (consumes_fail _ 0).bind fun _ => consumes_pure _
  | fixed32 => exact consumes_int32.mono (by omega)
  | fixed24 => exact consumes_int32.mono (by omega)

/-- An integer token holds no more than 32 bits. -/
theorem isPayload_of_readInteger {e : IndexEncoding} {r r' : Reader} {i : Int}
    (h : e.readInteger r = .ok i r') : Double.isPayload i = true := by
  have hint32 : ∀ {r r' : Reader} {i : Int}, int32 r = .ok i r' → Double.isPayload i = true := by
    intro r r' i h
    obtain ⟨n, t, hfixed, h⟩ := run_bind_eq_ok.mp h
    obtain ⟨bytes, u, hbytes, hn⟩ := run_bind_eq_ok.mp hfixed
    obtain ⟨rfl, rfl⟩ := run_pure_eq_ok.mp hn
    obtain ⟨rfl, rfl⟩ := run_pure_eq_ok.mp h
    have hlt := Bytes.number_lt bytes
    rw [length_of_bytes hbytes] at hlt
    rw [Double.isPayload_iff, Bytes.asSigned]
    split <;> omega
  cases e with
  | varint =>
      obtain ⟨start, u, -, h⟩ := run_bind_eq_ok.mp h
      obtain ⟨value, v, -, h⟩ := run_bind_eq_ok.mp h
      split at h
      · rename_i hpayload
        obtain ⟨rfl, -⟩ := run_pure_eq_ok.mp h
        exact hpayload
      · simp only [run_fail_bind, reduceCtorEq] at h
  | fixed32 => exact hint32 h
  | fixed24 => exact hint32 h

end IndexEncoding

end SyntaxPack
