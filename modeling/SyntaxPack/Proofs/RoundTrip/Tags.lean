import SyntaxPack.Proofs.Encode.Census
import SyntaxPack.Proofs.RoundTrip.Front
/-!
# SyntaxPack.Proofs.RoundTrip.Tags

The tags of a module, found in every way there is.

A finalized module has the index of a tag under the name of the tag, in its tag table. A built-in
tag is not looked up, as it never moves, and for a shape the index is also kept beside the table.
Reading builds its own list of tags from the names that were written, and finds the index of a
shape by a search in that list. All of these go back to one list, `tagsOf`: the built-in tags and
then the shapes in the order in which the walk met their first objects. A shape without objects is
in none of them, so that null references to it take the stream of objects on both sides.
-/

namespace SyntaxPack

/-- Every number below that of the built-in tags is the index of one. -/
theorem Builtin.exists_seedIndex {i : Nat} (h : i < Builtin.count) :
    ∃ b : Builtin, b.seedIndex = i := by
  have hall : ∀ i : Fin Builtin.count, ∃ b ∈ Builtin.all, b.seedIndex = i := by decide
  obtain ⟨b, -, hb⟩ := hall ⟨i, h⟩
  exact ⟨b, hb⟩

namespace Module

variable {registry : Registry} {shapes : List ShapeId} {m : Module}

/-- The tags of a finalized module are the built-in ones and then some shapes, wherever they are
looked up. -/
structure TagsAgree (registry : Registry) (shapes : List ShapeId) (m : Module) : Prop where
  /-- The table lists the tags in this order. -/
  listed : ∃ order, m.tags.indexed = .ok order ∧ order.filterMap m.tags.value? = tagsOf shapes
  size : m.tags.size = Builtin.count + shapes.length
  /-- A tag has the index that its name has in the table, or none for the same reason. -/
  lookup : ∀ tag, Tag.Registered registry tag →
    m.tagIndex registry tag = m.tags.indexOf (registry.tagName tag)
  /-- The built-in tags are in front, each at its own index. -/
  builtin : ∀ b, m.tagIndex registry (.builtin b) = .ok b.seedIndex
  builtins : ∀ i, (∃ b, m.tagIndex registry (.builtin b) = .ok i) ↔ i < Builtin.count
  /-- The shapes follow, without gaps. -/
  shape : ∀ id i, id.index < registry.shapes.length →
    (m.tagIndex registry (.shape id) = .ok i ↔ ∃ k, i = Builtin.count + k ∧ shapes[k]? = some id)
  /-- Other shapes are unknown. -/
  absent : ∀ id, id.index < registry.shapes.length → id ∉ shapes →
    m.tagIndex registry (.shape id) =
      .error (.unknownName m.tags.label (Text.quoted (registry.shapeName id)))
  /-- What is written are the names of the tags, unless there are too many. -/
  written : ∀ writer : WriteInput, writer.module = m → writer.tagSection =
    if m.tags.size < UInt32.size then
      .ok (Bytes.fixed 4 m.tags.size ++
        ((tagsOf shapes).map registry.tagName).flatMap Bytes.ofText)
    else .error (.encode (.sectionTooLarge "tags" m.tags.size))
  /-- The tags are read back as they are listed, up to the end of their section. -/
  readBack : ∀ (writer : WriteInput) (body framed rest : List UInt8) (s : DecodeState),
    writer.module = m → writer.tagSection = .ok body →
    WriteInput.frame "tags" body = .ok framed → s.input.unread = framed ++ rest →
    ∃ t, Decode.inSection "tags" (readTagTable registry m.tags.size) s = .ok (tagsOf shapes) t ∧
      t.input.unread = rest
  /-- Once they are read, a shape has the index that the module keeps for it, if it keeps one. -/
  indices : ∀ input : DecodeInput, input.tags = (tagsOf shapes).toArray → ∀ id,
    input.shapeTag id = m.shapeTags.lookup id
  /-- So everything is read from the stream that it was sent to. -/
  routed : ∀ input : DecodeInput, input.tags = (tagsOf shapes).toArray → ∀ tag,
    Tag.Registered registry tag → tag.streamIndex input.shapeTag =
      tag.streamIndex fun id => (m.tagIndex registry (.shape id)).toOption

/-- The tags are read back from their section, as each name stands where its tag does. -/
theorem TagsIndexed.readBack (h : TagsIndexed registry shapes m) (hr : registry.Valid)
    {writer : WriteInput} {body framed rest : List UInt8} {s : DecodeState}
    (hmodule : writer.module = m) (hbody : writer.tagSection = .ok body)
    (hframed : WriteInput.frame "tags" body = .ok framed) (hs : s.input.unread = framed ++ rest) :
    ∃ t, Decode.inSection "tags" (readTagTable registry m.tags.size) s = .ok (tagsOf shapes) t ∧
      t.input.unread = rest := by
  rw [h.tagSection_eq hmodule] at hbody
  split at hbody
  · rename_i hcount
    obtain rfl := Except.ok.inj hbody
    have hsize := (lt_of_frame hframed).1
    rw [List.length_append] at hsize
    have hsizes : UInt32.size < 2 ^ 64 := by decide
    rw [h.size]
    obtain ⟨_, _, hrun⟩ := @run_inSection _ _ _ _ "tags" "tags"
      (readTagTable registry (tagsOf shapes).length) _ _ hs hframed fun u origin hu =>
        run_readTagTable hr h.registered hcount rfl (by omega) hu
    exact ⟨_, hrun, rfl⟩
  · cases hbody

theorem TagsIndexed.size_eq (h : TagsIndexed registry shapes m) :
    m.tags.size = Builtin.count + shapes.length := by
  rw [h.size, tagsOf, List.length_append, List.length_map, List.length_map, Builtin.length_all]

/-- The built-in tags take all indices in front of the shapes. -/
theorem exists_tagIndex_builtin {i : Nat} :
    (∃ b, m.tagIndex registry (.builtin b) = .ok i) ↔ i < Builtin.count := by
  constructor
  · intro h
    obtain ⟨b, hb⟩ := h
    exact Except.ok.inj hb ▸ b.seedIndex_lt
  · intro hlt
    obtain ⟨b, hb⟩ := Builtin.exists_seedIndex hlt
    exact ⟨b, congrArg Except.ok hb⟩

/-- Once a tag table is finalized, everything agrees with its entries. -/
theorem TagTable.agree {t : Table String Tag} (h : TagTable registry shapes t)
    (hr : registry.Valid) (horder : t.order = none) (htags : m.tags = t.finalizeAll .insertion)
    (hshapeTags : m.shapeTags = shapeTagsOf m.tags) : TagsAgree registry shapes m := by
  have hindexed := h.indexed horder htags hshapeTags hr
  have hlookup : ∀ tag, Tag.Registered registry tag →
      m.tagIndex registry tag = m.tags.indexOf (registry.tagName tag) := fun _ htag =>
    h.tagIndex_eq_indexOf horder htags hshapeTags hr htag
  exact
    { listed := h.values_listed horder htags
      size := hindexed.size_eq
      lookup := hlookup
      builtin := fun _ => rfl
      builtins := fun _ => exists_tagIndex_builtin
      shape := fun id i hid =>
        (hindexed.tagIndex_eq_ok_iff (.shape id) i hid).trans getElem?_tagsOf_shape
      absent := fun id hid hmem => (hlookup (.shape id) hid).trans
        (h.indexOf_of_notMem htags hr hid (mt mem_tagsOf_shape.mp hmem))
      written := fun writer hmodule => by rw [hindexed.tagSection_eq hmodule, hindexed.size]
      readBack := fun writer body framed rest s hmodule hbody hframed hs =>
        hindexed.readBack hr hmodule hbody hframed hs
      indices := fun input hread id => by
        refine Option.ext fun i => ?_
        rw [DecodeInput.shapeTag_eq_some_iff h.nodup (congrArg Array.toList hread),
          h.lookup_shapeTags horder htags hshapeTags]
      routed := fun input hread tag htag =>
        (hindexed.streamIndex_eq (congrArg Array.toList hread) htag).symm }

/-- Whatever the ordering of the other tables, and whether nodes were merged or not, the tags
agree once a walk is finalized: the shapes follow in the order in which the walk met their first
objects. -/
theorem tagsAgree_finalize {description : RegistryDescription} {tree : Tree}
    {config : EncodingConfig} {m' : Module} {postOrder : List NodeId}
    (hregistry : description.build = .ok registry)
    (hwalk : (⟨tree, registry, config⟩ : WalkInput).walk = .ok (m, postOrder))
    (hm' : m' = m ∨ ∃ minUses merged,
      m.dedupe tree registry postOrder minUses = .ok (merged, m'))
    (ordering : TableOrdering) (limit : Option Nat) :
    ∃ log opened, Visits (tree.slots registry) [] [tree.root] log opened postOrder ∧
      m'.tags.entries.map (·.value) = tagsOf (WalkInput.shapesOf ⟨tree, registry, config⟩ log) ∧
      (∀ shape, shape ∈ WalkInput.shapesOf ⟨tree, registry, config⟩ log ↔
        ∃ id, tree.InUse registry id ∧ tree.shape? registry id = some shape) ∧
      TagsAgree registry (WalkInput.shapesOf ⟨tree, registry, config⟩ log)
        (m'.finalize ordering limit) := by
  have hr := RegistryDescription.valid_of_build hregistry
  obtain ⟨w, rfl, rfl⟩ := WalkInput.exists_trace hr hwalk
  have hsame : m'.tags = w.module.tags := by
    rcases hm' with rfl | ⟨minUses, merged, hdedupe⟩
    · rfl
    · exact tags_of_dedupe hdedupe
  have htags := w.logged.tags
  rw [← hsame] at htags
  have horder : m'.tags.order = none := hsame ▸ w.walked.gathered.building.tags
  exact ⟨w.log, w.opened, w.visits, htags.values, fun _ => w.mem_shapesOf,
    htags.agree hr horder rfl rfl⟩

/-- Where only pairs are used, their tag is the first one behind the built-in tags, although
leaves come before them in the registry. Merging the pairs and counting hits do not move it. -/
theorem copiedPairs_tagsAgree :
    RegistryDescription.leavesAndPairs.build = .ok .leavesAndPairs ∧
    ∃ m postOrder merged m', (⟨.copiedPairs, .leavesAndPairs, {}⟩ : WalkInput).walk =
        .ok (m, postOrder) ∧
      m.dedupe .copiedPairs .leavesAndPairs postOrder 2 = .ok (merged, m') ∧ merged = 2 ∧
      TagsAgree .leavesAndPairs [⟨1⟩] (m'.finalize .hitCountDescending none) := by
  have hrun : (⟨.copiedPairs, .leavesAndPairs, {}⟩ : WalkInput).walk.toOption.bind (fun found =>
      (found.1.dedupe .copiedPairs .leavesAndPairs found.2 2).toOption.map fun result =>
        (result.1, result.2.tags.entries.map (·.value))) = some (2, tagsOf [⟨1⟩]) := by
    decide +kernel
  obtain ⟨⟨m, postOrder⟩, hm, hmerged⟩ := Option.bind_eq_some_iff.mp hrun
  obtain ⟨⟨merged, m'⟩, hresult, hfound⟩ := Option.map_eq_some_iff.mp hmerged
  obtain ⟨hcount, hvalues⟩ := Prod.mk.inj hfound
  have hwalk := eq_ok_of_toOption hm
  have hdedupe := eq_ok_of_toOption hresult
  obtain ⟨log, _, -, htags, -, hagree⟩ := tagsAgree_finalize Registry.build_leavesAndPairs hwalk
    (Or.inr ⟨2, merged, hdedupe⟩) .hitCountDescending none
  rw [tagsOf_inj (htags.symm.trans hvalues)] at hagree
  exact ⟨Registry.build_leavesAndPairs, m, postOrder, merged, m', hwalk, hdedupe, hcount, hagree⟩

end Module

end SyntaxPack
