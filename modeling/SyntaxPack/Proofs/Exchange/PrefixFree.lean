import SyntaxPack.Proofs.Exchange.Whole
/-!
# SyntaxPack.Proofs.Exchange.PrefixFree

A module ends where it says.

No module that is accepted is the beginning of another one, and none of its substreams
can be replaced by one that only goes on behind it. The framing is adjusted, so that
nothing but the content of the substream tells.
-/

namespace SyntaxPack

namespace Module

open Segment

/-- A substream that goes on behind its content, among segments that stay as they are. -/
theorem forall₂_grows {body more : List UInt8} (hmore : (body ++ more).length < UInt32.size)
    (before after : List Segment) (label : String) :
    List.Forall₂ (Grows fun other n => other = label ∧ n = more.length)
      (before ++ .framed label body :: after) (before ++ .framed label (body ++ more) :: after) :=
  List.rel_append (List.forall₂_same.mpr fun segment _ => .refl _ segment)
    (.cons (.framed label body more (fun _ => hmore) fun _ => ⟨rfl, rfl⟩)
      (List.forall₂_same.mpr fun segment _ => .refl _ segment))

/-- A module that is accepted is not the beginning of another one, and none of its
substreams can be longer: bytes behind it are reported, and so are bytes behind the
content of a substream whose two lengths say that they belong to it. -/
theorem decode_prefix_free {description : RegistryDescription} {registry : Registry}
    (hbuild : description.build = .ok registry) {bytes : List UInt8} {tree : Tree}
    (h : decode bytes registry = .ok tree) :
    (∀ front tail, front ++ tail = bytes → tail ≠ [] → ∃ error, decode front registry = .error error) ∧
    (∀ tail, tail ≠ [] → decode (bytes ++ tail) registry =
      .error (.decode (.trailingBytes "module" bytes.length tail.length))) ∧
    ∃ segs, segments bytes = some segs ∧ unframe segs = bytes ∧
      ∀ before label body after more, segs = before ++ .framed label body :: after → more ≠ [] →
        (body ++ more).length < UInt32.size →
        ∃ offset, decode (unframe (before ++ .framed label (body ++ more) :: after)) registry =
          .error (.decode (.trailingBytes label offset more.length)) := by
  have hr := RegistryDescription.valid_of_build hbuild
  have hbehind : ∀ {bytes : List UInt8} {tree : Tree}, decode bytes registry = .ok tree →
      ∀ tail, tail ≠ [] → decode (bytes ++ tail) registry =
        .error (.decode (.trailingBytes "module" bytes.length tail.length)) := by
    intro bytes tree h tail htail
    obtain ⟨segs, -, hbytes, hself, hjudge⟩ := exists_segments_of_decode hr h
    have hsame : List.Forall₂ (Grows fun _ _ => False) segs segs :=
      List.forall₂_same.mpr fun segment _ => .refl _ segment
    rcases hjudge registry hr hself _ segs tail hsame with ⟨-, hdecode⟩ | ⟨_, _, _, hfalse, -⟩
    · rwa [hbytes, if_neg htail] at hdecode
    · exact hfalse.elim
  refine ⟨fun front tail hbytes htail => ?_, hbehind h, ?_⟩
  · cases hfront : decode front registry with
    | error error => exact ⟨error, rfl⟩
    | ok found =>
        have hrefused := hbehind hfront tail htail
        rw [hbytes, h] at hrefused
        simp at hrefused
  · obtain ⟨segs, hsegments, hbytes, hself, hjudge⟩ := exists_segments_of_decode hr h
    refine ⟨segs, hsegments, hbytes, fun before label body after more hsegs hmore hlt => ?_⟩
    subst hsegs
    have hgrown := forall₂_grows hlt before after label
    rcases hjudge registry hr hself _ _ [] hgrown with ⟨hsame, -⟩ | ⟨_, _, offset, ⟨rfl, rfl⟩, hdecode⟩
    · simp [hmore] at hsame
    · exact ⟨offset, by rwa [List.append_nil] at hdecode⟩

/-- The bytes of the root of `pairsInPlace` can neither be followed by others within the
root nor behind the module. -/
theorem decode_prefix_free_pairsInPlace :
    decode pairsInPlace .pairs = .ok .pairs ∧
    (∃ error, decode (pairsInPlace.take 100) .pairs = .error error) ∧
    decode (pairsInPlace ++ [0]) .pairs = .error (.decode (.trailingBytes "module" 181 1)) ∧
    ∃ segs before offset, segments pairsInPlace = some segs ∧
      segs = before ++ [.framed "root" [11, 11, 1, 11, 2, 7]] ∧
      decode (unframe (before ++ [.framed "root" ([11, 11, 1, 11, 2, 7] ++ [0])])) .pairs =
        .error (.decode (.trailingBytes "root" offset 1)) := by
  obtain ⟨hfront, hbehind, segs, hsegments, -, hgrown⟩ :=
    decode_prefix_free Registry.build_pairs decode_pairsInPlace
  have hlength : pairsInPlace.length = 181 := by decide +kernel
  have hsplit : segments pairsInPlace = some (((segments pairsInPlace).getD []).dropLast ++
      [.framed "root" [11, 11, 1, 11, 2, 7]]) := by decide +kernel
  have hsegs := Option.some.inj (hsegments.symm.trans hsplit)
  obtain ⟨offset, hroot⟩ := hgrown _ "root" _ [] [0] hsegs (by decide) (by decide)
  refine ⟨decode_pairsInPlace, hfront _ (pairsInPlace.drop 100) (List.take_append_drop ..) ?_, ?_,
    segs, _, offset, hsegments, hsegs, hroot⟩
  · exact List.ne_nil_of_length_pos (by rw [List.length_drop, hlength]; decide)
  · rw [hbehind [0] (by decide), hlength]
    rfl

end Module

end SyntaxPack
