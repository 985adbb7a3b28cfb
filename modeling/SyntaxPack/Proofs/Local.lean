import SyntaxPack.Proofs.Written
/-!
# SyntaxPack.Proofs.Local

A read does not look past what it takes.

`Read.Local read` says that a successful run of `read` takes some bytes off the front
of a reader, and would have taken the same ones and returned the same item wherever
they stood and whatever followed them. Errors are not local: they name offsets and the
number of bytes that are left. Nor are guards that compare a count with the bytes that
are left, but those pass once the items they guard have been read.
-/

namespace SyntaxPack

namespace Bytes

/-- A number in a fixed number of bytes is written as the bytes it was read from. -/
theorem fixed_number (bytes : List UInt8) : fixed bytes.length (number bytes) = bytes := by
  induction bytes with
  | nil => rfl
  | cons b bytes ih =>
      have hb : b.toNat < 256 := b.toNat_lt
      have hlow : (b.toNat + 256 * number bytes) % 256 = b.toNat := by omega
      have hhigh : (b.toNat + 256 * number bytes) / 256 = number bytes := by omega
      rw [List.length_cons, number, fixed, hlow, hhigh, ih]
      simp

end Bytes

namespace Varint

/-- The groups of an unsigned number are all that reading it depends on. -/
theorem readUnsignedWithin_local {bits value : Nat} {bytes rest : List UInt8}
    (h : readUnsignedWithin bits bytes = .ok (value, rest)) :
    ∃ used, bytes = used ++ rest ∧
      ∀ more, readUnsignedWithin bits (used ++ more) = .ok (value, more) := by
  induction bytes generalizing bits value with
  | nil => simp at h
  | cons b bytes ih =>
      simp only [readUnsignedWithin] at h
      split at h
      · simp at h
      · rename_i hgroup
        split at h
        · rename_i hlast
          obtain ⟨rfl, rfl⟩ := Prod.mk.inj (Except.ok.inj h)
          refine ⟨[b], rfl, fun more => ?_⟩
          simp only [List.singleton_append, readUnsignedWithin, if_neg hgroup, if_pos hlast]
        · rename_i hlast
          split at h
          · simp at h
          · rename_i hbits
            split at h
            · rename_i high tail hread
              obtain ⟨rfl, rfl⟩ := Prod.mk.inj (Except.ok.inj h)
              obtain ⟨used, rfl, hused⟩ := ih hread
              refine ⟨b :: used, rfl, fun more => ?_⟩
              simp only [List.cons_append, readUnsignedWithin, if_neg hgroup, if_neg hlast,
                if_neg hbits, hused more]
            · simp at h

/-- The groups of a signed number are all that reading it depends on. -/
theorem readSignedFrom_local {shift : Nat} {value : Int} {bytes rest : List UInt8}
    (h : readSignedFrom shift bytes = .ok (value, rest)) :
    ∃ used, bytes = used ++ rest ∧
      ∀ more, readSignedFrom shift (used ++ more) = .ok (value, more) := by
  induction bytes generalizing shift value with
  | nil => simp at h
  | cons b bytes ih =>
      simp only [readSignedFrom] at h
      split at h
      · simp at h
      · rename_i hshift
        split at h
        · rename_i hlast
          obtain ⟨rfl, rfl⟩ := Prod.mk.inj (Except.ok.inj h)
          refine ⟨[b], rfl, fun more => ?_⟩
          simp only [List.singleton_append, readSignedFrom, if_neg hshift, if_pos hlast]
        · rename_i hlast
          split at h
          · rename_i high tail hread
            obtain ⟨rfl, rfl⟩ := Prod.mk.inj (Except.ok.inj h)
            obtain ⟨used, rfl, hused⟩ := ih hread
            refine ⟨b :: used, rfl, fun more => ?_⟩
            simp only [List.cons_append, readSignedFrom, if_neg hshift, if_neg hlast, hused more]
          · simp at h

theorem readUnsigned_local {value : Nat} {bytes rest : List UInt8}
    (h : readUnsigned bytes = .ok (value, rest)) :
    ∃ used, bytes = used ++ rest ∧ ∀ more, readUnsigned (used ++ more) = .ok (value, more) := by
  simp only [readUnsigned_eq] at h ⊢
  exact readUnsignedWithin_local h

theorem readSigned_local {value : Int} {bytes rest : List UInt8}
    (h : readSigned bytes = .ok (value, rest)) :
    ∃ used, bytes = used ++ rest ∧ ∀ more, readSigned (used ++ more) = .ok (value, more) := by
  simp only [readSigned_eq] at h ⊢
  exact readSignedFrom_local h

end Varint

namespace Read

variable {α β : Type}

/-- A successful run depends on nothing but the bytes that it takes. -/
def Local (read : Read α) : Prop :=
  ∀ (r : Reader) (a : α) (r' : Reader), read r = .ok a r' →
    ∃ used, r.unread = used ++ r'.unread ∧ read.Takes used a

/-! ### Combinators

Being local is kept by binding, choosing and repeating. Asking for the offset is not local by
itself, but what is done with it here is to put it into an error. -/

theorem local_pure (a : α) : Local (pure a : Read α) := by
  intro r b r' h
  obtain ⟨rfl, rfl⟩ := run_pure_eq_ok.mp h
  exact ⟨[], rfl, takes_pure a⟩

theorem local_fail (error : DecodeError) : Local (fail error : Read α) := by
  intro r b r' h
  simp at h

theorem Local.bind {read : Read α} {next : α → Read β} (hr : read.Local)
    (hn : ∀ a, (next a).Local) : (read >>= next).Local := by
  intro r b r' h
  obtain ⟨a, t, hread, hnext⟩ := run_bind_eq_ok.mp h
  obtain ⟨used, hused, htakes⟩ := hr _ _ _ hread
  obtain ⟨used', hused', htakes'⟩ := hn a _ _ _ hnext
  exact ⟨used ++ used', by rw [hused, hused', List.append_assoc], htakes.bind htakes'⟩

theorem Local.map {read : Read α} (hr : read.Local) (f : α → β) : Local (f <$> read) := by
  rw [map_eq_pure_bind]
  exact hr.bind fun _ => local_pure _

theorem local_ite {p : Prop} [Decidable p] {x y : Read α} (hx : x.Local) (hy : y.Local) :
    (if p then x else y).Local := by
  split
  · exact hx
  · exact hy

/-- An offset that only goes into errors does not stand in the way. -/
theorem local_offset_bind {next : Nat → Read α}
    (h : ∀ start r a r', next start r = .ok a r' →
      ∃ used, r.unread = used ++ r'.unread ∧ ∀ start', (next start').Takes used a) :
    (offset >>= next).Local := by
  intro r a r' hrun
  rw [run_bind_of_ok run_offset] at hrun
  obtain ⟨used, hused, htakes⟩ := h _ _ _ _ hrun
  refine ⟨used, hused, fun rest start => ?_⟩
  rw [run_bind_of_ok run_offset]
  exact htakes start rest start

theorem local_replicate {read : Read α} (h : read.Local) (count : Nat) :
    (replicate count read).Local := by
  suffices ∀ items, (replicate.go read count items).Local from this []
  induction count with
  | zero => exact fun items => local_pure items.reverse
  | succ count ih => exact fun items => h.bind fun a => ih (a :: items)

/-! ### Items

Items are made of fixed numbers of bytes and of base-128 numbers, and a base-128 number ends where
its own bytes say. -/

theorem unread_of_bytes {n : Nat} {r r' : Reader} {bs : List UInt8}
    (h : bytes n r = .ok bs r') : r.unread = bs ++ r'.unread :=
  (bytes_eq_ok_iff.mp h).1

theorem local_bytes (n : Nat) : Local (bytes n) := by
  intro r bs r' h
  obtain rfl := length_of_bytes h
  exact ⟨bs, unread_of_bytes h, takes_bytes bs⟩

theorem local_fixed (width : Nat) : Local (fixed width) :=
  (local_bytes width).bind fun _ => local_pure _

theorem local_byte : Local byte := (local_fixed 1).bind fun _ => local_pure _

theorem local_nat32 : Local nat32 := local_fixed 4

theorem local_int32 : Local int32 := (local_fixed 4).bind fun _ => local_pure _

theorem local_double : Local double := (local_fixed 8).bind fun _ => local_pure _

theorem local_varint {read : List UInt8 → Except Varint.Fault (α × List UInt8)}
    (h : ∀ {bytes rest : List UInt8} {a : α}, read bytes = .ok (a, rest) →
      ∃ used, bytes = used ++ rest ∧ ∀ more, read (used ++ more) = .ok (a, more))
    (hgroups : ∀ {bytes rest : List UInt8} {a : α}, read bytes = .ok (a, rest) →
      Varint.groupCount bytes ≤ bytes.length ∧ rest = bytes.drop (Varint.groupCount bytes)) :
    Local (varint read) := by
  intro r a r' hr
  obtain ⟨rest, hread, rfl⟩ := varint_eq_ok_iff.mp hr
  obtain ⟨used, hused, htakes⟩ := h hread
  exact ⟨used, hused, takes_varint htakes hgroups⟩

theorem local_unsigned : Local unsigned :=
  local_varint Varint.readUnsigned_local Varint.readUnsigned_rest

theorem local_signed : Local signed :=
  local_varint Varint.readSigned_local Varint.readSigned_rest

theorem local_text : Local text := by
  refine local_unsigned.bind fun length => local_offset_bind fun start r s r' h => ?_
  obtain ⟨bytes, t, hbytes, hdecode⟩ := run_bind_eq_ok.mp h
  obtain ⟨used, hused, htakes⟩ := local_bytes length _ _ _ hbytes
  cases hfound : Utf8.decode bytes with
  | error fault => simp [hfound] at hdecode
  | ok found =>
      simp only [hfound] at hdecode
      obtain ⟨rfl, rfl⟩ := run_pure_eq_ok.mp hdecode
      refine ⟨used, hused, fun start' rest offset => ?_⟩
      rw [run_bind_of_ok (htakes rest offset)]
      simp only [hfound, run_pure]

/-! ### Substreams

A substream is checked against both copies of its length, so its bytes are known from its
content. -/

/-- A number of 32 bits takes its four bytes. -/
theorem unread_of_nat32 {r r' : Reader} {n : Nat} (h : nat32 r = .ok n r') :
    r.unread = Bytes.fixed 4 n ++ r'.unread := by
  obtain ⟨bytes, t, hbytes, hn⟩ := run_bind_eq_ok.mp h
  obtain ⟨rfl, rfl⟩ := run_pure_eq_ok.mp hn
  rw [← length_of_bytes hbytes, Bytes.fixed_number]
  exact unread_of_bytes hbytes

/-- A substream stands between two copies of its length. -/
theorem unread_of_substream {r r' body : Reader} (h : substream r = .ok body r') :
    body.unread.length < UInt32.size ∧ r.unread = Bytes.fixed 4 body.unread.length ++ body.unread ++
      Bytes.fixed 4 body.unread.length ++ r'.unread := by
  obtain ⟨r₁, r₂, hheader, hbytes, hfooter⟩ := substream_eq_ok h
  refine ⟨lt_of_nat32 hheader, ?_⟩
  rw [unread_of_nat32 hheader, unread_of_bytes hbytes, unread_of_nat32 hfooter]
  simp only [Reader.remaining, List.append_assoc]

end Read

/-! ### Tokens

A token takes an item in one of three encodings, and what is checked about it is its value. -/

namespace IndexEncoding

open Read

theorem local_readToken (e : IndexEncoding) : e.readToken.Local := by
  cases e with
  | fixed32 => exact local_nat32
  | fixed24 => exact local_fixed 3
  | varint =>
      refine local_offset_bind fun start r value r' h => ?_
      obtain ⟨n, t, hunsigned, h₁⟩ := run_bind_eq_ok.mp h
      obtain ⟨used, hused, htakes⟩ := local_unsigned _ _ _ hunsigned
      split at h₁
      · simp only [run_fail_bind, reduceCtorEq] at h₁
      · rename_i hlt
        obtain ⟨rfl, rfl⟩ := run_pure_eq_ok.mp h₁
        refine ⟨used, hused, fun start' rest offset => ?_⟩
        rw [run_bind_of_ok (htakes rest offset), if_neg hlt]
        rfl

theorem local_readIndex (e : IndexEncoding) : e.readIndex.Local := e.local_readToken

theorem local_readReference (e : IndexEncoding) : e.readReference.Local := by
  refine e.local_readToken.bind fun token => ?_
  cases token with
  | zero => exact local_pure _
  | succ index => exact local_pure _

theorem local_readInteger (e : IndexEncoding) : e.readInteger.Local := by
  cases e with
  | fixed32 | fixed24 => exact local_int32
  | varint =>
      refine local_offset_bind fun start r value r' h => ?_
      obtain ⟨i, t, hsigned, h₁⟩ := run_bind_eq_ok.mp h
      obtain ⟨used, hused, htakes⟩ := local_signed _ _ _ hsigned
      split at h₁
      · rename_i hpayload
        obtain ⟨rfl, rfl⟩ := run_pure_eq_ok.mp h₁
        refine ⟨used, hused, fun start' rest offset => ?_⟩
        rw [run_bind_of_ok (htakes rest offset), if_pos hpayload]
        rfl
      · simp only [run_fail_bind, reduceCtorEq] at h₁

end IndexEncoding

/-! ### Header and directory

The guards on counts look at what is left of the bytes, which makes them the one thing here that is
not local. They pass on the bytes that were taken, since every entry that is counted was read from
these. -/

namespace Module

open Read

theorem takes_readMagic : readMagic.Takes magic () := by
  intro rest offset
  have hsplit : Bytes.splitFront magic.length (magic ++ rest) = some (magic, rest) :=
    Bytes.splitFront_eq_some_iff.mpr ⟨rfl, rfl⟩
  simp only [readMagic, hsplit, if_true]

theorem local_readMagic : readMagic.Local :=
  fun _ _ _ h => ⟨magic, (readMagic_eq_ok h).1, takes_readMagic⟩

theorem local_readLayout : readLayout.Local := by
  refine local_byte.bind fun byte => ?_
  split
  · exact local_fail _
  · refine local_byte.bind fun flags => ?_
    split
    · exact local_fail _
    · exact local_pure _

theorem local_readHeader : readHeader.Local := by
  refine local_readMagic.bind fun _ => local_text.bind fun name => ?_
  exact local_ite ((local_fail _).bind fun _ => local_readLayout) local_readLayout

theorem local_readDirectoryTable : readDirectoryTable.Local :=
  local_nat32.bind fun _ => local_nat32.bind fun _ => local_pure _

/-- The tables that were read are as many as the guard in front of them asks for. -/
theorem local_readDirectoryTables : readDirectoryTables.Local := by
  refine local_nat32.bind fun count r tables r' h => ?_
  rw [run_bind_of_ok run_get] at h
  split at h
  · simp only [run_fail_bind, reduceCtorEq] at h
  · obtain ⟨used, hused, htakes⟩ := local_replicate local_readDirectoryTable count _ _ _ h
    have hbytes := (consumes_replicate consumes_readDirectoryTable count).remaining_add_le h
    have hlength : count * 8 ≤ used.length := by
      simp only [Reader.remaining, hused, List.length_append] at hbytes
      omega
    refine ⟨used, hused, fun rest offset => ?_⟩
    rw [run_bind_of_ok run_get, if_neg (by simp only [Reader.remaining, List.length_append]; omega)]
    exact htakes rest offset

theorem local_readObjectDirectory (wire : WireFormat) : (readObjectDirectory wire).Local :=
  local_ite (local_readDirectoryTables.map _) (local_nat32.map _)

theorem local_readDirectory (wire : WireFormat) : (readDirectory wire).Local :=
  local_nat32.bind fun _ => local_nat32.bind fun _ => local_nat32.bind fun _ =>
    (local_readObjectDirectory wire).bind fun _ => local_pure _

end Module

end SyntaxPack
