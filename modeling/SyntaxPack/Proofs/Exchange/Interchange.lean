import SyntaxPack.Proofs.Exchange.Encoded
import SyntaxPack.Proofs.Exchange.Whole
/-!
# SyntaxPack.Proofs.Exchange.Interchange

Registries that can take each other's place.

A module names its shapes, so it can be written under one registry and read under another
one that has other shapes besides, in another order. What counts is that both declare the
shapes that are in use alike.
-/

namespace SyntaxPack

namespace Registry

theorem agree_leavesAndPairs : pairs.Agree leavesAndPairs "Pair" :=
  ⟨⟨0⟩, ⟨1⟩, by decide, by decide,
    .cons ⟨rfl, .integer⟩ (.cons ⟨rfl, .nullable (.shape (by decide))⟩ .nil)⟩

end Registry

/-- Registries that declare the shapes in use alike are interchangeable: a tree is encoded to
the same bytes if they agree on the shapes of all objects that its root leads to, and a
module is decoded to the same tree if they agree on the shapes that its tag table names. -/
theorem interchangeable_of_agree {description description' : RegistryDescription}
    {registry registry' : Registry} (hbuild : description.build = .ok registry)
    (hbuild' : description'.build = .ok registry') :
    (∀ (config : EncodingConfig) (tree : Tree) (bytes : List UInt8),
      (∀ id object, tree.Reachable id → tree.object? id = some object →
        registry.Agree registry' object.shape) →
      encode tree registry config = .ok bytes → encode tree registry' config = .ok bytes) ∧
    (∀ (bytes : List UInt8) (tree : Tree),
      (∀ name ∈ (Module.tagNames bytes).drop Builtin.count, registry.Agree registry' name) →
      decode bytes registry = .ok tree → decode bytes registry' = .ok tree) := by
  have hr := RegistryDescription.valid_of_build hbuild
  have hr' := RegistryDescription.valid_of_build hbuild'
  refine ⟨fun config tree bytes hagree hencode => ?_, fun bytes tree hagree hdecode => ?_⟩
  · have hshared : tree.Shared registry registry' := ⟨hr, hr', hagree⟩
    exact hshared.follows_encode config bytes hencode
  · obtain ⟨segs, -, hbytes, -, hjudge⟩ := Module.exists_segments_of_decode hr hdecode
    -- nothing has grown, so that none of the other outcomes is left
    have hsame : List.Forall₂ (Segment.Grows fun _ _ => False) segs segs :=
      List.forall₂_same.mpr fun segment _ => .refl _ segment
    rcases hjudge registry' hr' hagree _ segs [] hsame with ⟨-, hdecode'⟩ | ⟨_, _, _, hfalse, -⟩
    · simpa [hbytes] using hdecode'
    · exact hfalse.elim

/-- Pairs are written and read the same if leaves are known besides. -/
theorem interchangeable_leavesAndPairs :
    RegistryDescription.pairs.build = .ok .pairs ∧
    RegistryDescription.leavesAndPairs.build = .ok .leavesAndPairs ∧
    (∃ bytes, encode .pairs .pairs { inlineObjects := true, dedupe := true } = .ok bytes ∧
      encode .pairs .leavesAndPairs { inlineObjects := true, dedupe := true } = .ok bytes) ∧
    decode Module.pairsInPlace .pairs = .ok .pairs ∧
    decode Module.pairsInPlace .leavesAndPairs = .ok .pairs := by
  obtain ⟨hencode, hdecode⟩ :=
    interchangeable_of_agree Registry.build_pairs Registry.build_leavesAndPairs
  have hsome : (encode .pairs .pairs { inlineObjects := true, dedupe := true }).toOption.isSome =
      true := by decide +kernel
  obtain ⟨bytes, hbytes⟩ := Option.isSome_iff_exists.mp hsome
  have hbytes' := eq_ok_of_toOption hbytes
  have hobjects : ∀ id object, Tree.pairs.Reachable id → Tree.pairs.object? id = some object →
      Registry.pairs.Agree .leavesAndPairs object.shape := by
    intro id object _ hobject
    match id with
    | ⟨0⟩ | ⟨1⟩ =>
        obtain rfl := Option.some.inj hobject
        exact Registry.agree_leavesAndPairs
    | ⟨_ + 2⟩ => cases hobject
  have hnames : (Module.tagNames Module.pairsInPlace).drop Builtin.count = ["Pair"] := by
    decide +kernel
  refine ⟨Registry.build_pairs, Registry.build_leavesAndPairs,
    ⟨bytes, hbytes', hencode _ _ bytes hobjects hbytes'⟩, Module.decode_pairsInPlace,
    hdecode _ _ (fun name hname => ?_) Module.decode_pairsInPlace⟩
  rw [hnames, List.mem_singleton] at hname
  exact hname ▸ Registry.agree_leavesAndPairs

end SyntaxPack
