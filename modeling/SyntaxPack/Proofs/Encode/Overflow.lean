import SyntaxPack.Proofs.Encode.Tokens
/-!
# SyntaxPack.Proofs.Encode.Overflow

What writing a finalized module can fail with.

Once the module is built, nothing but a number that does not fit stops the writer. With
fewer than 2^32 - 1 entries in every table, only the encoding in 24 bits has such an
index.
-/

namespace SyntaxPack

namespace Module

namespace Built

variable {input : WalkInput} {shapes : List ShapeId} {rank : NodeId → Nat} {m : Module}

variable (h : Built input shapes rank m)
include h

/-! ### Sections of bytes -/

theorem writes_tagSection : Writes input m (input.writer m).tagSection fun _ => True := by
  obtain ⟨order, horder, -⟩ := h.tags.order
  simp only [WriteInput.tagSection, Table.indexed, horder, Except.mapError, ok_bind]
  exact .bind .ofCount fun _ _ => .ok trivial

theorem writes_stringSection : Writes input m (input.writer m).stringSection fun _ => True := by
  obtain ⟨order, horder, -⟩ := h.strings.order
  simp only [WriteInput.stringSection, Table.indexed, horder, Except.mapError, ok_bind]
  exact .bind .ofCount fun _ _ => .ok trivial

theorem writes_tableCount {table : ObjectTable} (htable : table ∈ m.objects.tables) :
    Writes input m (WriteInput.tableCount table.table) (· ≠ []) := by
  obtain ⟨shape, ht, -⟩ := h.filled.wellShaped.exists_table? htable
  obtain ⟨order, horder, -⟩ := (h.objects shape _ ht).order
  simp only [WriteInput.tableCount, Table.indexed, horder, Except.mapError, ok_bind]
  exact .ofCount

theorem writes_directoryTable (hp : m.objects.partitioned = true) {table : ObjectTable}
    (htable : table ∈ m.objects.tables) :
    Writes input m ((input.writer m).directoryTable table) fun _ => True := by
  obtain ⟨shape, hmem, hshape⟩ := h.mem_shapes_of_table hp htable
  obtain ⟨index, hok, -⟩ := h.tagIndex_eq_ok (mem_tagsOf_shape.mpr hmem)
  simp only [WriteInput.directoryTable, hshape, WriteInput.slotTag, Option.elim_some, hok, Except.mapError,
    ok_bind]
  exact .bind (h.writes_tableCount htable) fun _ _ => .ok trivial

theorem writes_directoryObjects :
    Writes input m (input.writer m).directoryObjects fun _ => True := by
  simp only [WriteInput.directoryObjects]
  split
  · rename_i hp
    exact .bind .ofCount fun _ _ => .bind (.mapM fun table htable =>
      h.writes_directoryTable (h.partitioned.trans hp) htable) fun _ _ => .ok trivial
  · split
    · rename_i table rest htables
      exact (h.writes_tableCount (by rw [htables]; exact List.mem_cons_self)).weaken fun _ _ => trivial
    · exact Yields.ofCount.weaken fun _ _ => trivial

theorem writes_directory : Writes input m (input.writer m).directory fun _ => True :=
  .bind .ofCount fun _ _ => .bind .ofCount fun _ _ => .bind .ofCount fun _ _ =>
    .bind h.writes_directoryObjects fun _ _ => .ok trivial

omit h in
theorem writes_streamSection (w : StreamWriter) :
    Writes input m ((input.writer m).streamSection w) fun _ => True := by
  have hstream : ∀ stream : Nat × List UInt8, Writes input m (do
      let framed ← WriteInput.frame s!"value stream #{stream.1}" stream.2
      .ok (Bytes.fixed 4 stream.1 ++ framed)) fun _ => True := fun stream =>
    .bind .framed fun _ _ => .ok trivial
  simp only [WriteInput.streamSection]
  split
  · exact .ok trivial
  · exact .bind .ofCount fun _ _ => .bind (.mapM fun stream _ => hstream stream)
      fun _ _ => .ok trivial

theorem writes_bytes (hr : input.registry.Valid) :
    Writes input m (input.writer m).bytes fun _ => True := by
  have htables : ∀ table ∈ m.objects.tables.map (·.table),
      Writes input m ((input.writer m).objectSection table) fun _ => True := by
    intro table htable
    obtain ⟨t, ht, rfl⟩ := List.mem_map.mp htable
    exact (h.writes_objectSection hr ht).weaken fun _ _ => trivial
  exact .bind h.writes_directory fun _ _ => .bind h.writes_tagSection fun _ _ =>
    .bind .framed fun _ _ => .bind h.writes_stringSection fun _ _ => .bind .framed fun _ _ =>
    .bind (.mapM htables) fun _ _ => .bind (h.writes_arraySection hr) fun _ _ =>
    .bind (h.writes_rootSection hr) fun _ _ => .bind (writes_streamSection _) fun _ _ =>
    .bind (.mapM fun _ _ => .framed) fun _ _ => .bind .framed fun _ _ => .bind .framed fun _ _ =>
    .ok trivial

end Built

/-- Once the module of a tree without reachable cycles is built, writing it succeeds or
fails with an overflow. With fewer than 2^32 - 1 entries in every table, no index
overflows an encoding but the one in 24 bits. -/
theorem bytes_ok_or_overflow {description : RegistryDescription} {registry : Registry}
    (hregistry : description.build = .ok registry) {tree : Tree}
    (hacyclic : ∀ id, tree.Reachable id → ¬ tree.Reaches id id) {config : EncodingConfig}
    {m : Module} (hbuild : Module.build tree registry config = .ok m) :
    (∃ bytes, (⟨tree, registry, m, config.wire⟩ : WriteInput).bytes = .ok bytes) ∨
      ∃ e, (⟨tree, registry, m, config.wire⟩ : WriteInput).bytes = .error (.encode e) ∧
        ((∃ label count, e = .sectionTooLarge label count) ∨
          ∃ table value, e = .indexOverflow table value config.indexEncoding ∧
            (m.Indexable → config.indexEncoding = .fixed24)) := by
  have hr := RegistryDescription.valid_of_build hregistry
  obtain ⟨shapes, rank, h⟩ := built_of_build hr hacyclic hbuild
  cases hbytes : (⟨tree, registry, m, config.wire⟩ : WriteInput).bytes with
  | ok bytes => exact Or.inl ⟨bytes, rfl⟩
  | error e =>
      cases (h.writes_bytes hr).error e hbytes with
      | size label count => exact Or.inr ⟨_, rfl, Or.inl ⟨label, count, rfl⟩⟩
      | index table value hwidth => exact Or.inr ⟨_, rfl, Or.inr ⟨table, value, rfl, hwidth⟩⟩

/-- The two pairs, each written where it is used. -/
theorem pairs_ok_or_overflow : ∃ m, Module.build .pairs .pairs { inlineObjects := true } = .ok m ∧
    ((∃ bytes, (⟨.pairs, .pairs, m, ⟨.varint, false, false, true⟩⟩ : WriteInput).bytes = .ok bytes) ∨
      ∃ e, (⟨.pairs, .pairs, m, ⟨.varint, false, false, true⟩⟩ : WriteInput).bytes =
          .error (.encode e) ∧
        ((∃ label count, e = .sectionTooLarge label count) ∨
          ∃ table value, e = .indexOverflow table value .varint ∧
            (m.Indexable → IndexEncoding.varint = .fixed24))) := by
  have hsome : (Module.build .pairs .pairs { inlineObjects := true }).toOption.isSome = true := by
    decide +kernel
  obtain ⟨m, hm⟩ := Option.isSome_iff_exists.mp hsome
  have hbuild := eq_ok_of_toOption hm
  exact ⟨m, hbuild,
    bytes_ok_or_overflow Registry.build_pairs (fun id _ => Tree.pairs_acyclic id) hbuild⟩

end Module

end SyntaxPack
