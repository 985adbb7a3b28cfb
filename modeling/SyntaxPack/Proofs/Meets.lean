import SyntaxPack.Module.Header
import SyntaxPack.Proofs.Reader
/-!
# SyntaxPack.Proofs.Meets

What holds after a program, and what can be said of the errors it fails with.

`Meets pre x post blame` says both of a program with a state: started where `pre` holds, it ends
where `post` does or fails with an error that satisfies `blame`. Sequences and loops are put
together from their steps. Of the reads of single items it is enough to know that none of them
reports a tag (`Read.Plain`).
-/

namespace SyntaxPack

section Meets

variable {ε σ α β : Type} {pre pre' inv : σ → Prop} {post post' : α → σ → Prop} {blame : ε → Prop}
  {x : EStateM ε σ α}

/-- From states with `pre`, a program leads to a result and a state with `post`, or it fails with an
error with `blame`. -/
structure Meets (pre : σ → Prop) (x : EStateM ε σ α) (post : α → σ → Prop) (blame : ε → Prop) :
    Prop where
  ok : ∀ s a t, pre s → x s = .ok a t → post a t
  error : ∀ s e t, pre s → x s = .error e t → blame e

namespace Meets

theorem mono (h : Meets pre x post blame) (hpre : ∀ s, pre' s → pre s)
    (hpost : ∀ a s, post a s → post' a s) : Meets pre' x post' blame where
  ok s a t hs hx := hpost a t (h.ok s a t (hpre s hs) hx)
  error s e t hs hx := h.error s e t (hpre s hs) hx

theorem bind {f : α → EStateM ε σ β} {last : β → σ → Prop} (hx : Meets pre x post blame)
    (hf : ∀ a, Meets (post a) (f a) last blame) : Meets pre (x >>= f) last blame where
  ok s b t hs h := by
    obtain ⟨a, u, hrun, h⟩ := run_bind_eq_ok.mp h
    exact (hf a).ok u b t (hx.ok s a u hs hrun) h
  error s e t hs h := by
    rcases run_bind_eq_error.mp h with h | ⟨a, u, hrun, h⟩
    · exact hx.error s e t hs h
    · exact (hf a).error u e t (hx.ok s a u hs hrun) h

/-- A step that fails cannot lead anywhere. -/
theorem of_eq_error {e : ε} (h : ∀ s, pre s → x s = .error e s) (he : blame e) :
    Meets pre x post blame where
  ok s a t hs hx := by rw [h s hs] at hx; cases hx
  error s e' t hs hx := by rw [h s hs] at hx; cases hx; exact he

/-- What is known of a state in any case may be used. -/
theorem of_and {p : Prop} (h : p → Meets pre x post blame) :
    Meets (fun s => pre s ∧ p) x post blame where
  ok s a t hs hx := (h hs.2).ok s a t hs.1 hx
  error s e t hs hx := (h hs.2).error s e t hs.1 hx

end Meets

theorem meets_pure {a : α} (h : ∀ s, pre s → post a s) :
    Meets pre (pure a : EStateM ε σ α) post blame where
  ok s b t hs hx := by
    obtain ⟨rfl, rfl⟩ := run_pure_eq_ok.mp hx
    exact h s hs
  error s e t hs hx := by cases hx

theorem meets_throw {e : ε} (he : blame e) :
    Meets pre (throw e : EStateM ε σ α) post blame :=
  .of_eq_error (fun _ _ => rfl) he

theorem meets_get : Meets pre (get : EStateM ε σ σ) (fun a s => pre s ∧ a = s) blame where
  ok s a t hs hx := by cases hx; exact ⟨hs, rfl⟩
  error s e t hs hx := by cases hx

theorem meets_modify {f : σ → σ} (h : ∀ s, pre s → pre' (f s)) :
    Meets pre (modify f : EStateM ε σ PUnit) (fun _ => pre') blame where
  ok s a t hs hx := by
    simp only [run_modify, EStateM.Result.ok.injEq, true_and] at hx
    exact hx ▸ h s hs
  error s e t hs hx := by simp at hx

theorem meets_ite {p : Prop} [Decidable p] {y : EStateM ε σ α} (hx : Meets pre x post blame)
    (hy : Meets pre y post blame) : Meets pre (if p then x else y) post blame := by
  split
  · exact hx
  · exact hy

/-- What every step of a loop keeps is kept by the loop. -/
theorem meets_mapM {f : α → EStateM ε σ β} {xs : List α}
    (h : ∀ x ∈ xs, Meets inv (f x) (fun _ => inv) blame) :
    Meets inv (xs.mapM f) (fun _ => inv) blame := by
  induction xs with
  | nil => exact meets_pure fun _ hs => hs
  | cons x xs ih =>
      rw [List.mapM_cons]
      refine (h x List.mem_cons_self).bind fun y => ?_
      exact (ih fun z hz => h z (List.mem_cons_of_mem x hz)).bind fun ys => meets_pure fun _ hs => hs

theorem meets_forM {f : α → EStateM ε σ PUnit} {xs : List α}
    (h : ∀ x ∈ xs, Meets inv (f x) (fun _ => inv) blame) :
    Meets inv (xs.forM f) (fun _ => inv) blame := by
  induction xs with
  | nil => exact meets_pure fun _ hs => hs
  | cons x xs ih =>
      exact (h x List.mem_cons_self).bind fun _ => ih fun z hz => h z (List.mem_cons_of_mem x hz)

end Meets

/-! ### Reads -/

/-- Whether an error is about anything but a tag. -/
def DecodeError.IsPlain : DecodeError → Prop
  | unexpectedTag _ _ _ => False
  | _ => True

namespace Read

variable {α β : Type}

/-- A read never reports a tag. -/
abbrev Plain (read : Read α) : Prop :=
  Meets (fun _ => True) read (fun _ _ => True) DecodeError.IsPlain

theorem plain_of_error {read : Read α}
    (h : ∀ r e r', read r = .error e r' → e.IsPlain) : read.Plain where
  ok _ _ _ _ _ := trivial
  error r e r' _ hr := h r e r' hr

theorem Plain.bind {read : Read α} {next : α → Read β} (h : read.Plain) (hn : ∀ a, (next a).Plain) :
    (read >>= next).Plain :=
  Meets.bind h hn

theorem plain_pure (a : α) : Plain (pure a : Read α) := meets_pure fun _ _ => trivial

theorem plain_fail {e : DecodeError} (he : e.IsPlain) : Plain (fail e : Read α) :=
  .of_eq_error (fun _ _ => rfl) he

/-- A failed check leaves nothing to be run. -/
theorem plain_fail_bind {e : DecodeError} {next : α → Read β} (he : e.IsPlain) :
    Plain (fail e >>= next) :=
  .of_eq_error (fun _ _ => rfl) he

theorem plain_offset : Plain offset := plain_of_error fun r e r' h => by cases h

theorem plain_get : Plain (get : Read Reader) := plain_of_error fun r e r' h => by cases h

theorem Plain.map {read : Read α} (h : read.Plain) (f : α → β) : (f <$> read).Plain := by
  rw [map_eq_pure_bind]
  exact h.bind fun _ => plain_pure _

theorem plain_replicate {read : Read α} (h : read.Plain) (count : Nat) :
    (replicate count read).Plain := by
  suffices ∀ items, (replicate.go read count items).Plain from this []
  induction count with
  | zero => exact fun items => plain_pure items.reverse
  | succ count ih => exact fun items => h.bind fun a => ih (a :: items)

theorem plain_bytes (n : Nat) : Plain (bytes n) := by
  refine plain_of_error fun r e r' h => ?_
  obtain ⟨-, rfl, -⟩ := bytes_eq_error_iff.mp h
  trivial

theorem plain_fixed (width : Nat) : Plain (fixed width) :=
  (plain_bytes width).bind fun _ => plain_pure _

theorem plain_byte : Plain byte := (plain_fixed 1).bind fun _ => plain_pure _

theorem plain_nat32 : Plain nat32 := plain_fixed 4

theorem plain_int32 : Plain int32 := (plain_fixed 4).bind fun _ => plain_pure _

theorem plain_double : Plain double := (plain_fixed 8).bind fun _ => plain_pure _

theorem plain_varint {read : List UInt8 → Except Varint.Fault (α × List UInt8)} :
    Plain (varint read) := by
  refine plain_of_error fun r e r' h => ?_
  obtain ⟨fault, -, rfl, -⟩ := varint_eq_error_iff.mp h
  cases fault <;> trivial

theorem plain_text : Plain text := by
  refine plain_varint.bind fun length => plain_offset.bind fun start =>
    (plain_bytes length).bind fun bytes => ?_
  split
  · exact plain_pure _
  · exact plain_fail trivial

theorem plain_substream : Plain substream := by
  refine plain_offset.bind fun start => plain_nat32.bind fun header => plain_offset.bind fun origin =>
    (plain_bytes header).bind fun body => plain_nat32.bind fun footer => ?_
  split
  · exact plain_fail_bind trivial
  · exact plain_pure _

end Read

namespace IndexEncoding

open Read

theorem plain_readToken (e : IndexEncoding) : e.readToken.Plain := by
  cases e with
  | fixed32 => exact plain_nat32
  | fixed24 => exact plain_fixed 3
  | varint =>
      refine plain_offset.bind fun start => plain_varint.bind fun value => ?_
      split
      · exact plain_fail_bind trivial
      · exact plain_pure _

theorem plain_readReference (e : IndexEncoding) : e.readReference.Plain := by
  refine e.plain_readToken.bind fun token => ?_
  split
  · exact plain_pure _
  · exact plain_pure _

theorem plain_readInteger (e : IndexEncoding) : e.readInteger.Plain := by
  cases e with
  | fixed32 | fixed24 => exact plain_int32
  | varint =>
      refine plain_offset.bind fun start => plain_varint.bind fun value => ?_
      split
      · exact plain_pure _
      · exact plain_fail_bind trivial

end IndexEncoding

namespace Module

open Read

theorem plain_readMagic : readMagic.Plain := by
  refine plain_of_error fun r e r' h => ?_
  simp only [readMagic] at h
  split at h
  · split at h
    · cases h
    · cases h
      trivial
  · cases h
    trivial

theorem plain_readLayout : readLayout.Plain := by
  refine plain_byte.bind fun byte => ?_
  split
  · exact plain_fail trivial
  · refine plain_byte.bind fun flags => ?_
    split
    · exact plain_fail trivial
    · exact plain_pure _

theorem plain_readHeader : readHeader.Plain := by
  refine plain_readMagic.bind fun _ => plain_text.bind fun name => ?_
  exact meets_ite (plain_fail_bind trivial) plain_readLayout

theorem plain_readDirectoryTables : readDirectoryTables.Plain := by
  refine plain_nat32.bind fun count => plain_get.bind fun r => ?_
  have htable : readDirectoryTable.Plain :=
    plain_nat32.bind fun _ => plain_nat32.bind fun _ => plain_pure _
  exact meets_ite (plain_fail_bind trivial)
    (plain_replicate htable count)

theorem plain_readDirectory (wire : WireFormat) : (readDirectory wire).Plain :=
  plain_nat32.bind fun _ => plain_nat32.bind fun _ => plain_nat32.bind fun _ =>
    Plain.bind (meets_ite (plain_readDirectoryTables.map _) (plain_nat32.map _)) fun _ => plain_pure _

end Module

end SyntaxPack
