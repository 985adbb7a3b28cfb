import SyntaxPack.Proofs.Decode.Directory
import SyntaxPack.Proofs.RoundTrip.Front
import SyntaxPack.Proofs.Summary.Written
/-!
# SyntaxPack.Proofs.Summary.Directory

Which directories are unambiguous.

A module that is accepted leads from tag indices to registered shapes and from tables to shapes of
the tag table. A shape may stand twice in either, though, and the tag table may end before all
built-in tags are there; only the value streams are different by a check. In a module that
was encoded nothing stands twice.
-/

namespace SyntaxPack

namespace Module

/-! ### Modules that are accepted -/

/-- A module of nothing but null, whose tag table ends with the tag of null. -/
def shortTagTable : List UInt8 :=
  [137, 87, 101, 98, 65, 83, 77, 13, 10, 26, 10, 14, 104, 121, 97, 115, 116, 45, 109, 111, 100, 117,
    108, 101, 47, 49, 0, 0, 8, 0, 0, 0, 0, 0, 0, 0, 0, 0, 0, 0, 0, 0, 0, 0, 56, 0, 0, 0, 8, 0, 0, 0,
    3, 97, 110, 121, 5, 97, 114, 114, 97, 121, 6, 111, 98, 106, 101, 99, 116, 7, 98, 111, 111, 108,
    101, 97, 110, 6, 115, 116, 114, 105, 110, 103, 7, 105, 110, 116, 101, 103, 101, 114, 6, 110,
    117, 109, 98, 101, 114, 4, 110, 117, 108, 108, 56, 0, 0, 0, 4, 0, 0, 0, 0, 0, 0, 0, 4, 0, 0, 0,
    4, 0, 0, 0, 0, 0, 0, 0, 4, 0, 0, 0, 4, 0, 0, 0, 0, 0, 0, 0, 4, 0, 0, 0, 1, 0, 0, 0, 7, 1, 0, 0,
    0]

/-- A module in which pairs stand twice in the tag table and twice in the directory. The
root refers to the first pair of the second table. -/
def repeatedShape : List UInt8 :=
  [137, 87, 101, 98, 65, 83, 77, 13, 10, 26, 10, 14, 104, 121, 97, 115, 116, 45, 109, 111, 100, 117,
    108, 101, 47, 49, 0, 1, 13, 0, 0, 0, 0, 0, 0, 0, 0, 0, 0, 0, 2, 0, 0, 0, 11, 0, 0, 0, 1, 0, 0,
    0, 12, 0, 0, 0, 1, 0, 0, 0, 84, 0, 0, 0, 13, 0, 0, 0, 3, 97, 110, 121, 5, 97, 114, 114, 97, 121,
    6, 111, 98, 106, 101, 99, 116, 7, 98, 111, 111, 108, 101, 97, 110, 6, 115, 116, 114, 105, 110,
    103, 7, 105, 110, 116, 101, 103, 101, 114, 6, 110, 117, 109, 98, 101, 114, 4, 110, 117, 108,
    108, 4, 116, 114, 117, 101, 5, 102, 97, 108, 115, 101, 6, 100, 111, 117, 98, 108, 101, 4, 80,
    97, 105, 114, 4, 80, 97, 105, 114, 84, 0, 0, 0, 4, 0, 0, 0, 0, 0, 0, 0, 4, 0, 0, 0, 7, 0, 0, 0,
    1, 0, 0, 0, 11, 1, 0, 7, 0, 0, 0, 7, 0, 0, 0, 1, 0, 0, 0, 12, 2, 0, 7, 0, 0, 0, 4, 0, 0, 0, 0,
    0, 0, 0, 4, 0, 0, 0, 2, 0, 0, 0, 11, 1, 2, 0, 0, 0]

/-- What the front of a module is read as, if it is read. -/
def frontOf (bytes : List UInt8) (registry : Registry) : Option DecodeInput :=
  match readInput registry (Decode.start bytes) with
  | .ok input _ => some input
  | .error _ _ => none

theorem frontOf_eq_some {bytes : List UInt8} {registry : Registry} {input : DecodeInput} :
    frontOf bytes registry = some input ↔ ∃ s, readInput registry (Decode.start bytes) = .ok input s := by
  unfold frontOf
  cases readInput registry (Decode.start bytes) with
  | ok found s => simp
  | error e s => simp

/-- Decoding accepts a tag table without some of the built-in tags, and it accepts a shape that
stands twice, in the tag table and in the directory. -/
theorem decode_ambiguous :
    (∃ tree input s, decode shortTagTable .pairs = .ok tree ∧
      readInput .pairs (Decode.start shortTagTable) = .ok input s ∧
      input.tags.size < Builtin.count) ∧
    ∃ tree input s, decode repeatedShape .pairs = .ok tree ∧
      readInput .pairs (Decode.start repeatedShape) = .ok input s ∧
      ¬ input.tags.toList.Nodup ∧ ¬ (input.tables.filterMap ObjectSlots.shape).Nodup := by
  have hshort : (decode shortTagTable .pairs).toOption.isSome = true ∧
      (frontOf shortTagTable .pairs).map (·.tags.size) = some 8 := by
    decide +kernel
  have hrepeated : (decode repeatedShape .pairs).toOption.isSome = true ∧
      (frontOf repeatedShape .pairs).map (fun input => (input.tags.toList.drop Builtin.count,
        input.tables.filterMap ObjectSlots.shape)) =
        some ([.shape ⟨0⟩, .shape ⟨0⟩], [⟨0⟩, ⟨0⟩]) := by
    decide +kernel
  obtain ⟨tree, htree⟩ := Option.isSome_iff_exists.mp hshort.1
  obtain ⟨input, hinput, hsize⟩ := Option.map_eq_some_iff.mp hshort.2
  obtain ⟨s, hread⟩ := frontOf_eq_some.mp hinput
  obtain ⟨tree', htree'⟩ := Option.isSome_iff_exists.mp hrepeated.1
  obtain ⟨input', hinput', htwice⟩ := Option.map_eq_some_iff.mp hrepeated.2
  obtain ⟨s', hread'⟩ := frontOf_eq_some.mp hinput'
  obtain ⟨htags, htables⟩ := Prod.mk.inj htwice
  refine ⟨⟨tree, input, s, eq_ok_of_toOption htree, hread, ?_⟩,
    tree', input', s', eq_ok_of_toOption htree', hread', fun hnodup => ?_, ?_⟩
  · rw [hsize]
    decide
  · have hshapes := hnodup.sublist (List.drop_sublist Builtin.count _)
    rw [htags] at hshapes
    exact absurd hshapes (by decide)
  · rw [htables]
    decide

/-! ### Modules that are written -/

namespace Replay

variable {c : Replay}

/-- In what the decoder knows of a module that was written, nothing stands twice. -/
theorem unambiguous_decoder (hb : c.IsBuilt) : c.decoder.Unambiguous := by
  refine ⟨⟨c.shapes, hb.tags.nodup, rfl⟩, ?_⟩
  have hshapes := map_shape_slotsOf c.input.registry 0 c.module.objects.tables
  have hfilter : c.decoder.tables.filterMap ObjectSlots.shape =
      (c.module.objects.tables.map (·.shape)).filterMap (fun shape => shape) := by
    rw [← hshapes, List.filterMap_map]
    rfl
  rw [hfilter]
  cases hp : c.module.objects.partitioned with
  | true =>
      exact (hb.filled.wellShaped.nodup hp).filterMap fun shape shape' id hid hid' => hid.trans hid'.symm
  | false =>
      obtain ⟨shared, hshared⟩ := hb.filled.wellShaped.shared hp
      rw [hshared]
      exact List.nodup_nil

end Replay

/-- A module that was encoded is read, if at all, with an unambiguous directory. -/
theorem unambiguous_of_encode {registry : Registry} (hr : registry.Valid) {tree : Tree}
    {config : EncodingConfig} {bytes : List UInt8} (h : encode tree registry config = .ok bytes)
    {input : DecodeInput} {s : DecodeState}
    (hread : readInput registry (Decode.start bytes) = .ok input s) : input.Unambiguous := by
  obtain ⟨m, hbuild, hbytes⟩ := bind_eq_ok.mp h
  obtain ⟨shapes, rank, hlocated, -, -⟩ := located_of_build hr hbuild
  let c : Replay := ⟨⟨tree, registry, config⟩, shapes, rank, m, bytes.length⟩
  obtain ⟨l⟩ := Replay.nonempty_layout (c := c) hbytes
  have hinput : input = c.decoder :=
    Replay.eq_decoder_of_readInput (c := c) hlocated hr l.writes_directory l.writes_tags l.frames_tags
      l.writes_strings l.frames_strings l.bytes_eq rfl hread
  rw [hinput]
  exact Replay.unambiguous_decoder (c := c) hlocated

/-- A module that is accepted leads from tag indices and tables to registered shapes, and back to
the last index and the last table of a shape. Nothing is ambiguous exactly if all built-in tags
are there and no shape stands twice, which is not checked. A module that was encoded is never
ambiguous. -/
theorem directories_resolved (registry : Registry) :
    (∀ (bytes : List UInt8) (tree : Tree), decode bytes registry = .ok tree →
      ∃ summary input s, inspect bytes = .ok summary ∧
        readInput registry (Decode.start bytes) = .ok input s ∧ input.Directed registry ∧
        input.LastCounts ∧ (summary.valueStreams.map (·.1)).Nodup ∧
        (input.Unambiguous ↔ Builtin.count ≤ input.tags.size ∧ input.tags.toList.Nodup ∧
          (input.tables.filterMap ObjectSlots.shape).Nodup) ∧
        (input.Unambiguous → input.Single (summary.valueStreams.map (·.1)))) ∧
    ∀ description : RegistryDescription, description.build = .ok registry →
      ∀ (tree : Tree) (config : EncodingConfig) (bytes : List UInt8),
        encode tree registry config = .ok bytes →
          ∀ input s, readInput registry (Decode.start bytes) = .ok input s →
            ∃ summary, inspect bytes = .ok summary ∧ input.Unambiguous ∧
              input.Single (summary.valueStreams.map (·.1)) := by
  refine ⟨fun bytes tree h => ?_, fun description hbuild tree config bytes h => ?_⟩
  · obtain ⟨summary, input, s, hinspect, hread, hagrees, -⟩ := inspect_of_decode h
    have hdirected := directed_of_readInput hread
    exact ⟨summary, input, s, hinspect, hread, hdirected, input.lastCounts, hagrees.streams_ne,
      hdirected.unambiguous_iff, fun hone => hdirected.single hone hagrees.streams_ne⟩
  · intro input s hread
    have hr := RegistryDescription.valid_of_build hbuild
    obtain ⟨m, summary, -, hinspect, hdescribes⟩ := inspect_of_encode hr h
    have hone := unambiguous_of_encode hr h hread
    exact ⟨summary, hinspect, hone, (directed_of_readInput hread).single hone
      (hdescribes.streams_lt.imp Nat.ne_of_lt)⟩

/-- In the module of the pairs in place, nothing stands twice; nor is it so where they are written
into a table of their own. -/
theorem directories_resolved_pairs : decode pairsInPlace .pairs = .ok .pairs ∧
    (∃ input s, readInput .pairs (Decode.start pairsInPlace) = .ok input s ∧ input.Unambiguous) ∧
    RegistryDescription.pairs.build = .ok .pairs ∧ ∃ bytes input s,
      encode .pairs .pairs { partitionedTables := true, valueStreams := true } = .ok bytes ∧
      readInput .pairs (Decode.start bytes) = .ok input s ∧ input.Unambiguous := by
  have hplace : (frontOf pairsInPlace .pairs).map (fun input => (input.tags.toList,
      input.tables.filterMap ObjectSlots.shape)) = some (tagsOf [⟨0⟩], []) := by
    decide +kernel
  have hwritten : ((encode .pairs .pairs { partitionedTables := true, valueStreams := true }).toOption.bind
      (frontOf · .pairs)).isSome = true := by
    decide +kernel
  obtain ⟨summary, input, s, -, hread, -, -, -, hiff, -⟩ :=
    (directories_resolved .pairs).1 pairsInPlace .pairs decode_pairsInPlace
  rw [frontOf_eq_some.mpr ⟨s, hread⟩, Option.map_some, Option.some.injEq, Prod.mk.injEq] at hplace
  have hone : input.Unambiguous := by
    rw [hiff, ← Array.length_toList, hplace.1, hplace.2]
    decide
  obtain ⟨front, hfront⟩ := Option.isSome_iff_exists.mp hwritten
  obtain ⟨bytes, hbytes, hfront⟩ := Option.bind_eq_some_iff.mp hfront
  obtain ⟨t, hread'⟩ := frontOf_eq_some.mp hfront
  have hencode := eq_ok_of_toOption hbytes
  obtain ⟨-, -, hone', -⟩ := (directories_resolved .pairs).2 .pairs Registry.build_pairs .pairs _ bytes
    hencode front t hread'
  exact ⟨decode_pairsInPlace, ⟨input, s, hread, hone⟩, Registry.build_pairs, bytes, front, t, hencode,
    hread', hone'⟩

end Module

end SyntaxPack
