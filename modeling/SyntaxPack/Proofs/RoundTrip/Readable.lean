import SyntaxPack.Proofs.RoundTrip.Equal
/-!
# SyntaxPack.Proofs.RoundTrip.Readable

Encoded modules are readable.

Whatever the layout, the module of a tree without cycles is decoded to a tree that stands
for the same. Cycles are the one thing that an encoder may write and no decoder accepts:
the walk does not look for them, and only deduplication needs to see a node after those
it refers to.
-/

namespace SyntaxPack

/-- A pair that is its own next one. -/
def Tree.loop : Tree where
  nodes := #[.object ⟨"Pair", [("left", .number ⟨0x3ff0000000000000⟩), ("next", .object ⟨0⟩)]⟩]
  root := .object ⟨0⟩

namespace Module

variable {description : RegistryDescription} {registry : Registry} {tree : Tree}
  {config : EncodingConfig} {bytes : List UInt8}

/-- Under a configuration that rejects undeclared fields, none of them is set. -/
theorem onlyDeclared_of_rejected {c : Replay} (hb : c.IsBuilt)
    (hignore : c.input.config.ignoreUnknownFields = false) {id : NodeId}
    (hid : c.module.HasNode c.input.tree c.input.registry id) :
    c.input.tree.OnlyDeclared c.input.registry id := by
  intro object shape hobject hshape p hp
  have hchecked := ((hb.complete id hid).object object shape hobject hshape).1
  rw [WalkInput.checkDeclared, hignore] at hchecked
  simp only [Bool.false_eq_true, if_false] at hchecked
  split at hchecked
  · simp at hchecked
  · rename_i hnone
    simpa [Shape.declares, Registry.declares] using List.find?_eq_none.mp hnone p hp

/-- The fields that are declared are all that is encoded, and under any configuration that
rejects the others they are all there is. -/
theorem shown_declared {c : Replay} (hb : c.IsBuilt) :
    c.Shown (if c.input.config.ignoreUnknownFields then c.input.tree.declaredOnly c.input.registry
      else c.input.tree) := by
  cases hignore : c.input.config.ignoreUnknownFields with
  | true =>
      refine ⟨rfl, fun id _ => ⟨Tree.array?_declaredOnly _ _ _, Tree.shape?_declaredOnly _ _ _,
        Tree.slots_declaredOnly _ _ _, Tree.onlyDeclared_declaredOnly _ _ _⟩⟩
  | false =>
      exact ⟨rfl, fun id hid => ⟨rfl, rfl, rfl, onlyDeclared_of_rejected hb hignore hid⟩⟩

/-- What the decoder makes of an encoded module: a tree that stands for the encoded one,
unless that tree has a cycle and was not deduplicated. -/
theorem decode_of_encode (hr : registry.Valid)
    (hlength : ∀ id elements, tree.Reachable id → tree.array? id = some elements →
      elements.length < UInt32.size)
    (hinline : config.inlineObjects = true → ∀ id, tree.Reachable id → ¬ tree.Reaches id id)
    (h : encode tree registry config = .ok bytes) :
    ∃ decoded : Tree, decoded.structuralEq
        (if config.ignoreUnknownFields then tree.declaredOnly registry else tree) = true ∧
      (decode bytes registry = match decoded.findCycle with
        | some node => .error (.decode (.cyclicReference node.index))
        | none => .ok decoded) ∧
      ((∀ id, tree.Reachable id → ¬ tree.Reaches id id) ∨ config.dedupe = true →
        decoded.findCycle = none) := by
  obtain ⟨m, hbuild, hbytes⟩ := bind_eq_ok.mp h
  obtain ⟨shapes, rank, hlocated, hclassed, hranking⟩ := located_of_build hr hbuild
  let c : Replay := ⟨⟨tree, registry, config⟩, shapes, rank, m, bytes.length⟩
  have hb : Built c.input c.shapes c.rank c.module :=
    ⟨hlocated, fun hplace => hranking (Or.inl (Tree.not_above_of_acyclic (hinline hplace)))⟩
  have hkeys : ∀ id ∈ m.arrays.keys, ∀ elements, tree.array? id = some elements →
      elements.length < UInt32.size := fun id hid elements =>
    hlength id elements (hlocated.reachable id (hlocated.array_of_mem_keys hid).2)
  obtain ⟨origins, decoded, hcopy, hdecode⟩ := Replay.decode_eq hb hr hkeys rfl hbytes
  exact ⟨decoded, hcopy.structuralEq hlocated hclassed hr (shown_declared hlocated), hdecode,
    fun hranked => hcopy.findCycle_eq_none hr (hranking (hranked.imp_left Tree.not_above_of_acyclic))⟩

/-- What an encoded tree is decoded to looks the same, node by node. Fields that no shape declares
have been ignored, or there are none. -/
theorem corresponding_of_decode {decoded : Tree} (hr : registry.Valid)
    (hinline : config.inlineObjects = true → ∀ id, tree.Reachable id → ¬ tree.Reaches id id)
    (h : encode tree registry config = .ok bytes) (hdecode : decode bytes registry = .ok decoded) :
    ∃ related, Tree.Corresponding decoded tree registry related ∧
      Tree.Alike related decoded.root tree.root ∧
      (config.ignoreUnknownFields = false → ∀ x y, related x y → tree.OnlyDeclared registry y) := by
  obtain ⟨m, hbuild, hbytes⟩ := bind_eq_ok.mp h
  obtain ⟨shapes, rank, hlocated, hclassed, hranking⟩ := located_of_build hr hbuild
  let c : Replay := ⟨⟨tree, registry, config⟩, shapes, rank, m, bytes.length⟩
  have hb : Built c.input c.shapes c.rank c.module :=
    ⟨hlocated, fun hplace => hranking (Or.inl (Tree.not_above_of_acyclic (hinline hplace)))⟩
  have hlengths := Replay.lengths_of_decode hb hr rfl hbytes hdecode
  obtain ⟨origins, copy, hcopy, hcopied⟩ := Replay.decode_eq hb hr hlengths rfl hbytes
  have heq : copy = decoded := by
    have hdecode : decode bytes c.input.registry = .ok decoded := hdecode
    rw [hcopied] at hdecode
    split at hdecode
    · simp at hdecode
    · exact Except.ok.inj hdecode
  subst heq
  exact ⟨c.StandsFor origins, hcopy.sameSlots hlocated hclassed hr, hcopy.roots_alike hlocated,
    fun hignore x y hxy => onlyDeclared_of_rejected hlocated hignore hxy.1⟩

/-- A tree whose root reaches no cycle is decoded to one that stands for the same. Fields that
no shape declares are the only thing that may be lost, and only if that was asked for. -/
theorem decode_encode (hregistry : description.build = .ok registry)
    (hacyclic : ∀ id, tree.Reachable id → ¬ tree.Reaches id id)
    (hlength : ∀ id elements, tree.Reachable id → tree.array? id = some elements →
      elements.length < UInt32.size)
    (h : encode tree registry config = .ok bytes) :
    ∃ decoded, decode bytes registry = .ok decoded ∧ decoded.structuralEq
      (if config.ignoreUnknownFields then tree.declaredOnly registry else tree) = true := by
  have hr := RegistryDescription.valid_of_build hregistry
  obtain ⟨decoded, heq, hdecode, hcycle⟩ := decode_of_encode hr hlength (fun _ => hacyclic) h
  rw [hcycle (Or.inl hacyclic)] at hdecode
  exact ⟨decoded, hdecode, heq⟩

theorem array?_pairs (id : NodeId) : Tree.pairs.array? id = none := by
  match id with
  | ⟨0⟩ | ⟨1⟩ => rfl
  | ⟨_ + 2⟩ => rfl

/-- The two pairs, with equal ones merged and others written in place. -/
theorem decode_encode_pairs : RegistryDescription.pairs.build = .ok .pairs ∧
    ∃ bytes, encode .pairs .pairs { inlineObjects := true, dedupe := true } = .ok bytes ∧
      ∃ decoded, decode bytes .pairs = .ok decoded ∧ decoded.structuralEq .pairs = true := by
  have hsome : (encode .pairs .pairs { inlineObjects := true, dedupe := true }).toOption.isSome =
      true := by decide +kernel
  obtain ⟨bytes, hbytes⟩ := Option.isSome_iff_exists.mp hsome
  have h := eq_ok_of_toOption hbytes
  refine ⟨Registry.build_pairs, bytes, h, ?_⟩
  exact decode_encode Registry.build_pairs (fun id _ => Tree.pairs_acyclic id)
    (fun id elements _ harray => by simp [array?_pairs] at harray) h

/-- Where objects are not written in place, what was encoded is decoded, or it is refused for a
cycle that the root reaches and that deduplication was not there to notice. -/
theorem decode_ok_or_cyclic (hregistry : description.build = .ok registry)
    (hinline : config.inlineObjects = false)
    (hlength : ∀ id elements, tree.Reachable id → tree.array? id = some elements →
      elements.length < UInt32.size)
    (h : encode tree registry config = .ok bytes) :
    (∃ decoded, decode bytes registry = .ok decoded) ∨
      config.dedupe = false ∧ (∃ id, tree.Reachable id ∧ tree.Reaches id id) ∧
        ∃ node, decode bytes registry = .error (.decode (.cyclicReference node)) := by
  have hr := RegistryDescription.valid_of_build hregistry
  obtain ⟨decoded, -, hdecode, hcycle⟩ := decode_of_encode hr hlength
    (fun hplace => absurd (hinline.symm.trans hplace) Bool.false_ne_true) h
  cases hfound : decoded.findCycle with
  | none =>
      rw [hfound] at hdecode
      exact Or.inl ⟨decoded, hdecode⟩
  | some node =>
      rw [hfound] at hdecode hcycle
      have hnot : ¬ ((∀ id, tree.Reachable id → ¬ tree.Reaches id id) ∨ config.dedupe = true) :=
        fun hranked => Option.some_ne_none node (hcycle hranked)
      obtain ⟨hcyclic, hdedupe⟩ := not_or.mp hnot
      simp only [not_forall, not_not] at hcyclic
      obtain ⟨id, hid, hreaches⟩ := hcyclic
      exact Or.inr ⟨by simpa using hdedupe, ⟨id, hid, hreaches⟩, node.index, hdecode⟩

/-- Two pairs without a cycle are decoded whatever else holds, here with one table per shape. -/
theorem pairs_ok_or_cyclic : RegistryDescription.pairs.build = .ok .pairs ∧
    ∃ bytes, encode .pairs .pairs { partitionedTables := true } = .ok bytes ∧
      ((∃ decoded, decode bytes .pairs = .ok decoded) ∨
        EncodingConfig.dedupe { partitionedTables := true } = false ∧
          (∃ id, Tree.pairs.Reachable id ∧ Tree.pairs.Reaches id id) ∧
            ∃ node, decode bytes .pairs = .error (.decode (.cyclicReference node))) := by
  have hsome : (encode .pairs .pairs { partitionedTables := true }).toOption.isSome = true := by
    decide +kernel
  obtain ⟨bytes, hbytes⟩ := Option.isSome_iff_exists.mp hsome
  have h := eq_ok_of_toOption hbytes
  refine ⟨Registry.build_pairs, bytes, h, ?_⟩
  exact decode_ok_or_cyclic Registry.build_pairs rfl
    (fun id elements _ harray => by simp [array?_pairs] at harray) h

/-- The module of a pair that is its own next one. -/
def loopModule : List UInt8 :=
  [137, 87, 101, 98, 65, 83, 77, 13, 10, 26, 10, 14, 104, 121, 97, 115, 116, 45, 109, 111, 100, 117,
    108, 101, 47, 49, 0, 0, 12, 0, 0, 0, 0, 0, 0, 0, 0, 0, 0, 0, 1, 0, 0, 0, 79, 0, 0, 0, 12, 0, 0,
    0, 3, 97, 110, 121, 5, 97, 114, 114, 97, 121, 6, 111, 98, 106, 101, 99, 116, 7, 98, 111, 111, 108,
    101, 97, 110, 6, 115, 116, 114, 105, 110, 103, 7, 105, 110, 116, 101, 103, 101, 114, 6, 110, 117,
    109, 98, 101, 114, 4, 110, 117, 108, 108, 4, 116, 114, 117, 101, 5, 102, 97, 108, 115, 101, 6,
    100, 111, 117, 98, 108, 101, 4, 80, 97, 105, 114, 79, 0, 0, 0, 4, 0, 0, 0, 0, 0, 0, 0, 4, 0, 0,
    0, 7, 0, 0, 0, 1, 0, 0, 0, 11, 1, 1, 7, 0, 0, 0, 4, 0, 0, 0, 0, 0, 0, 0, 4, 0, 0, 0, 2, 0, 0, 0,
    11, 1, 2, 0, 0, 0]

/-- The walk of such a pair ends where it meets the pair again, and the pair is written. Only the
decoder sees that it refers to itself. -/
theorem loop_not_readable : RegistryDescription.pairs.build = .ok .pairs ∧
    encode .loop .pairs {} = .ok loopModule ∧
      decode loopModule .pairs = .error (.decode (.cyclicReference 0)) :=
  ⟨Registry.build_pairs, eq_ok_of_toOption (by decide +kernel), by decide +kernel⟩

end Module

end SyntaxPack
