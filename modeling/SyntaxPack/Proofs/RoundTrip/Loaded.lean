import SyntaxPack.Proofs.RoundTrip.Placed
import SyntaxPack.Proofs.Decode.Slots
import SyntaxPack.Proofs.Written
/-!
# SyntaxPack.Proofs.RoundTrip.Loaded

Tokens that are still to be read.

A reader is `Loaded` with tokens if what is unread of the section and of every stream is
what these tokens put there. Reading a token off its place leaves the reader loaded with
the tokens behind it, and a reader without tokens left is at its end everywhere.
-/

namespace SyntaxPack

open Token (sectionBytes streamBytes)

namespace StreamReader

variable {streams : Bool} {token : Token} {pending later : List Token} {r : StreamReader}

/-- What is unread are the tokens `pending` of the section and, in the streams, those of
the sections behind it as well. -/
structure Loaded (streams : Bool) (pending later : List Token) (r : StreamReader) : Prop where
  body : r.body.unread = sectionBytes streams pending
  disabled : streams = false → r.streams = none
  enabled : streams = true → ∃ map, r.streams = some map ∧ map.Ascending ∧
    ∀ key, ((map.find? key).map (·.unread)).getD [] = streamBytes (pending ++ later) key

theorem Loaded.ascending (h : Loaded streams pending later r) : r.Ascending := by
  intro map hmap
  cases streams with
  | false => simp [h.disabled rfl] at hmap
  | true =>
      obtain ⟨map', hmap', hascending, -⟩ := h.enabled rfl
      obtain rfl : map = map' := Option.some.inj (hmap.symm.trans hmap')
      exact hascending

/-- The bytes of a section's token that is written whatever the layout. -/
theorem Loaded.plain {bytes : List UInt8} (h : Loaded streams (⟨none, bytes⟩ :: pending) later r)
    (offset : Nat) : r.body.unread = bytes ++ sectionBytes streams pending ∧
      Loaded streams pending later { r with body := ⟨sectionBytes streams pending, offset⟩ } := by
  refine ⟨?_, rfl, h.disabled, fun hon => ?_⟩
  · rw [h.body, Token.sectionBytes_cons]
    simp
  · obtain ⟨map, hmap, hascending, hkeys⟩ := h.enabled hon
    refine ⟨map, hmap, hascending, fun key => ?_⟩
    rw [hkeys, List.cons_append, Token.streamBytes_cons]
    simp

/-- A token of a stream is found where the stream leads to. -/
theorem Loaded.route {key : Nat} {bytes : List UInt8} (hbytes : bytes ≠ [])
    (h : Loaded streams (⟨some key, bytes⟩ :: pending) later r) :
    ∃ start rest, r.route key = .ok ⟨bytes ++ rest, start⟩ ∧
      ∀ offset, Loaded streams pending later (r.advance key ⟨rest, offset⟩) := by
  cases streams with
  | false =>
      have hnone := h.disabled rfl
      have hunread : r.body.unread = bytes ++ sectionBytes false pending := h.body
      have hbody : r.body = ⟨bytes ++ sectionBytes false pending, r.body.offset⟩ := by
        rw [← hunread]
      refine ⟨r.body.offset, sectionBytes false pending, ?_, fun offset => ?_⟩
      · rw [StreamReader.route, hnone]
        exact congrArg Except.ok hbody
      · rw [StreamReader.advance, hnone]
        exact ⟨rfl, fun _ => rfl, fun hon => absurd hon Bool.false_ne_true⟩
  | true =>
      obtain ⟨map, hmap, hascending, hkeys⟩ := h.enabled rfl
      have hkey := hkeys key
      rw [List.cons_append, Token.streamBytes_cons, if_pos rfl] at hkey
      cases hfind : map.find? key with
      | none =>
          rw [hfind] at hkey
          exact absurd (List.append_eq_nil_iff.mp hkey.symm).1 hbytes
      | some stream =>
          obtain ⟨unread, start⟩ := stream
          rw [hfind] at hkey
          refine ⟨start, streamBytes (pending ++ later) key, ?_, fun offset => ?_⟩
          · rw [StreamReader.route, hmap]
            simp only [hfind]
            rw [show unread = bytes ++ streamBytes (pending ++ later) key from hkey]
          · rw [StreamReader.advance, hmap]
            refine ⟨?_, fun hoff => absurd hoff.symm Bool.false_ne_true, fun _ =>
              ⟨_, rfl, hascending.insert _ _, fun other => ?_⟩⟩
            · rw [h.body, Token.sectionBytes_cons]
              simp
            · rw [TagMap.find?_insert]
              by_cases hother : other = key
              · subst hother
                simp
              · rw [if_neg hother, hkeys, List.cons_append, Token.streamBytes_cons]
                simp [Ne.symm hother]

/-- The next section starts with its own tokens. -/
theorem Loaded.enter {tokens : List Token} (h : Loaded streams [] (tokens ++ later) r) (offset : Nat) :
    Loaded streams tokens later { r with body := ⟨sectionBytes streams tokens, offset⟩ } :=
  ⟨rfl, h.disabled, h.enabled⟩

theorem Loaded.body_end (h : Loaded streams [] later r) (label : String) :
    r.body.expectEnd label = .ok () := by
  simp [Reader.expectEnd, Reader.isAtEnd, h.body]

theorem Loaded.expectEnd (h : Loaded streams [] [] r) : r.expectEnd = .ok () := by
  cases streams with
  | false =>
      rw [StreamReader.expectEnd, h.disabled rfl]
      rfl
  | true =>
      obtain ⟨map, hmap, hascending, hkeys⟩ := h.enabled rfl
      rw [StreamReader.expectEnd, hmap]
      refine forM_eq_ok.mpr fun p hp => ?_
      have hkey := hkeys p.1
      rw [TagMap.find?_eq_some_of_mem hascending hp] at hkey
      have hend : p.2.unread = [] := hkey
      simp [Reader.expectEnd, Reader.isAtEnd, hend]

end StreamReader

end SyntaxPack
