import SyntaxPack.Proofs.Decode.Setup
import SyntaxPack.Proofs.Encode.Tags
/-!
# SyntaxPack.Proofs.Decode.Directory

How the tables of a module are found.

The tag table leads from indices to shapes, and the directory from shapes to object tables.
References go the other way, and where a name stands twice, they go to the last one. Decoding makes
sure that built-in tags stand in front, each at its own index, that only registered shapes follow
and that object tables have shapes of the tag table (`Directed`). It does not count the built-in
tags, nor does it look for a shape that stands twice; with these checks the directory would be
`Unambiguous`, and every shape would have one tag index, one object table and one value
stream (`Single`).
-/

namespace SyntaxPack

namespace Module

variable {registry : Registry} {s t : DecodeState}

namespace DecodeInput

variable {input : DecodeInput} {id : ShapeId}

/-! ### The last one counts

Both look-ups search from the end. So of several places the last one is found, and the others are
never referred to. -/

/-- The tag index of a shape is the last one at which the shape stands. -/
theorem shapeTag_eq_some {i : Nat} : input.shapeTag id = some i ↔
    input.tags[i]? = some (.shape id) ∧ ∀ j, i < j → input.tags[j]? ≠ some (.shape id) := by
  unfold shapeTag
  obtain ⟨tags, hsize⟩ : ∃ tags : List Tag, input.tags.toList = tags := ⟨_, rfl⟩
  simp only [← Array.getElem?_toList, ← Array.length_toList, hsize]
  constructor
  · intro h
    obtain ⟨k, hk, rfl⟩ := Option.map_eq_some_iff.mp h
    obtain ⟨hlt, hget, hbefore⟩ := List.findIdx?_eq_some_iff_getElem.mp hk
    rw [List.length_reverse] at hlt
    rw [List.getElem_reverse, decide_eq_true_eq] at hget
    refine ⟨by rw [← hget, List.getElem?_eq_getElem], fun j hj hagain => ?_⟩
    -- A later place would be an earlier one of the reversed table.
    obtain ⟨hjlt, hj'⟩ := List.getElem?_eq_some_iff.mp hagain
    have hearlier := hbefore (tags.length - 1 - j) (by omega)
    rw [List.getElem_reverse, decide_eq_true_eq] at hearlier
    refine hearlier (Eq.trans ?_ hj')
    congr 1
    omega
  · intro ⟨hget, hlast⟩
    obtain ⟨hlt, hi⟩ := List.getElem?_eq_some_iff.mp hget
    refine Option.map_eq_some_iff.mpr ⟨tags.length - 1 - i, ?_, by omega⟩
    refine List.findIdx?_eq_some_iff_getElem.mpr ⟨by rw [List.length_reverse]; omega, ?_, ?_⟩
    · rw [List.getElem_reverse, decide_eq_true_eq, ← hi]
      congr 1
      omega
    · intro k hk
      rw [List.getElem_reverse, decide_eq_true_eq]
      intro hagain
      refine hlast (tags.length - 1 - k) (by omega) ?_
      rw [← hagain, List.getElem?_eq_getElem]

/-- Where the tag table names every shape once, the tag index of a shape is where it stands. -/
theorem shapeTag_eq_some_iff {shapes : List ShapeId} (hnodup : shapes.Nodup)
    (htags : input.tags.toList = tagsOf shapes) {i : Nat} :
    input.shapeTag id = some i ↔ (tagsOf shapes)[i]? = some (.shape id) := by
  rw [shapeTag_eq_some, ← Array.getElem?_toList, htags]
  refine ⟨fun h => h.1, fun h => ⟨h, fun j hlt hagain => ?_⟩⟩
  rw [← Array.getElem?_toList, htags] at hagain
  exact Nat.ne_of_lt hlt (getElem?_tagsOf_inj hnodup h hagain)

/-- The object table of a shape is the last one for objects of the shape. -/
theorem tableFor_eq_some (hp : input.wire.partitionedTables = true) {slots : ObjectSlots} :
    input.tableFor (some id) = some slots ↔ ∃ before after,
      input.tables = before ++ slots :: after ∧ slots.shape = some id ∧
        ∀ other ∈ after, other.shape ≠ some id := by
  have hunfold : input.tableFor (some id) = input.tables.reverse.find? (·.shape = some id) := by
    rw [tableFor, if_pos hp]
  rw [hunfold, List.find?_eq_some_iff_append, decide_eq_true_eq]
  constructor
  · intro ⟨hshape, later, earlier, hsplit, hlater⟩
    refine ⟨earlier.reverse, later.reverse, ?_, hshape, fun other hother => ?_⟩
    · rw [← List.reverse_reverse input.tables, hsplit]
      simp
    · simpa using hlater other (List.mem_reverse.mp hother)
  · intro ⟨before, after, hsplit, hshape, hlast⟩
    refine ⟨hshape, after.reverse, before.reverse, by rw [hsplit]; simp, fun other hother => ?_⟩
    simpa using hlast other (List.mem_reverse.mp hother)

/-- Where a shape stands several times, references to it lead to the last place. -/
structure LastCounts (input : DecodeInput) : Prop where
  tag : ∀ shape i, input.shapeTag shape = some i ↔
    input.tags[i]? = some (.shape shape) ∧ ∀ j, i < j → input.tags[j]? ≠ some (.shape shape)
  table : input.wire.partitionedTables = true → ∀ shape slots,
    input.tableFor (some shape) = some slots ↔ ∃ before after,
      input.tables = before ++ slots :: after ∧ slots.shape = some shape ∧
        ∀ other ∈ after, other.shape ≠ some shape

theorem lastCounts (input : DecodeInput) : input.LastCounts :=
  ⟨fun _ _ => shapeTag_eq_some, fun hp _ _ => tableFor_eq_some hp⟩

/-! ### What decoding makes sure of

`Directed` is what holds after every successful decoding, `Unambiguous` is what a writer would have
ensured. The difference between them is three checks, and with these every look-up has one
answer. -/

/-- Built-in tags stand in front of the tag table, each at its own index, and registered shapes
behind them. An object table has one of these shapes, if it is not for objects of all shapes. -/
structure Directed (registry : Registry) (input : DecodeInput) : Prop where
  tags : ∃ shapes, input.tags.toList <+: tagsOf shapes ∧
    ∀ shape ∈ shapes, registry.lookup (registry.shapeName shape) = some shape
  tables : ∀ slots ∈ input.tables, ∀ shape, slots.shape = some shape →
    input.wire.partitionedTables = true ∧ .shape shape ∈ input.tags

/-- All built-in tags stand in front of the tag table, in their order, and different shapes behind
them; no two object tables have the same shape. -/
structure Unambiguous (input : DecodeInput) : Prop where
  tags : ∃ shapes : List ShapeId, shapes.Nodup ∧ input.tags.toList = tagsOf shapes
  tables : (input.tables.filterMap ObjectSlots.shape).Nodup

/-- Every shape has at most one tag index, one object table and one of the value streams with the
listed tag indices, and these are where references to the shape lead. -/
structure Single (input : DecodeInput) (streams : List Nat) : Prop where
  tag : ∀ shape i, input.tags[i]? = some (.shape shape) ↔ input.shapeTag shape = some i
  table : ∀ shape, input.tables.countP (·.shape = some shape) ≤ 1
  tableFor : ∀ shape, ∀ slots ∈ input.tables, slots.shape = some shape →
    input.tableFor (some shape) = some slots
  stream : ∀ shape, streams.countP (input.tags[·]? = some (.shape shape)) ≤ 1

/-- A table that starts as a tag table does lists the built-in tags if it is long enough. -/
theorem eq_tagsOf_of_prefix {tags : List Tag} {shapes : List ShapeId} (h : tags <+: tagsOf shapes)
    (hlength : Builtin.count ≤ tags.length) :
    tags = tagsOf (shapes.take (tags.length - Builtin.count)) := by
  have hbuiltins : (Builtin.all.map Tag.builtin).length = Builtin.count := rfl
  have htake := List.prefix_iff_eq_take.mp h
  rw [tagsOf, List.take_append, hbuiltins, List.take_of_length_le (by omega), ← List.map_take] at htake
  exact htake

namespace Unambiguous

variable (h : input.Unambiguous)
include h

/-- A shape has one tag index. -/
theorem eq_of_tag {shape : ShapeId} {i j : Nat} (hi : input.tags[i]? = some (.shape shape))
    (hj : input.tags[j]? = some (.shape shape)) : i = j := by
  obtain ⟨shapes, hnodup, htags⟩ := h.tags
  rw [← Array.getElem?_toList, htags] at hi hj
  exact getElem?_tagsOf_inj hnodup hi hj

/-- A shape has at most one object table. -/
theorem countP_tables_le (shape : ShapeId) : input.tables.countP (·.shape = some shape) ≤ 1 := by
  have hcount := List.nodup_iff_count_le_one.mp h.tables shape
  rw [List.count, List.countP_filterMap] at hcount
  refine Nat.le_trans (Nat.le_of_eq (List.countP_congr fun slots _ => ?_)) hcount
  cases slots.shape <;> simp

/-- A shape has at most one stream, as all streams that are counted belong to its one index. -/
theorem countP_streams_le {streams : List Nat} (hstreams : streams.Nodup) (shape : ShapeId) :
    streams.countP (input.tags[·]? = some (.shape shape)) ≤ 1 := by
  rw [List.countP_eq_length_filter]
  cases hfound : streams.filter (input.tags[·]? = some (.shape shape)) with
  | nil => exact Nat.zero_le _
  | cons i others =>
      have hmem : ∀ j ∈ i :: others, input.tags[j]? = some (.shape shape) := by
        intro j hj
        rw [← hfound] at hj
        simpa using (List.mem_filter.mp hj).2
      have hall : ∀ j ∈ i :: others, j = i := fun j hj =>
        h.eq_of_tag (hmem j hj) (hmem i List.mem_cons_self)
      have hreplicate := List.eq_replicate_of_mem hall
      have hfiltered := hstreams.filter (input.tags[·]? = some (.shape shape))
      rw [hfound, hreplicate, List.nodup_replicate] at hfiltered
      exact hfiltered

end Unambiguous

namespace Directed

/-- What decoding does not check is whether all built-in tags are there and whether a shape
stands twice, in the tag table or in the directory. -/
theorem unambiguous_iff (h : input.Directed registry) : input.Unambiguous ↔
    Builtin.count ≤ input.tags.size ∧ input.tags.toList.Nodup ∧
      (input.tables.filterMap ObjectSlots.shape).Nodup := by
  constructor
  · intro hone
    obtain ⟨shapes, hnodup, htags⟩ := hone.tags
    refine ⟨?_, htags ▸ nodup_tagsOf hnodup, hone.tables⟩
    rw [← Array.length_toList, htags, tagsOf, List.length_append]
    exact Nat.le_add_right _ _
  · intro hchecks
    obtain ⟨hsize, hnodup, htables⟩ := hchecks
    obtain ⟨shapes, hprefix, -⟩ := h.tags
    have htags := eq_tagsOf_of_prefix hprefix hsize
    refine ⟨⟨_, ?_, htags⟩, htables⟩
    rw [htags, tagsOf] at hnodup
    exact (List.Nodup.of_append_right hnodup).of_map _

/-- Where no name stands twice, every reference leads to the one place that there is. -/
theorem single (h : input.Directed registry) (hone : input.Unambiguous) {streams : List Nat}
    (hstreams : streams.Nodup) : input.Single streams where
  tag shape i := by
    rw [shapeTag_eq_some]
    refine ⟨fun hi => ⟨hi, fun j hlt hj => ?_⟩, fun hi => hi.1⟩
    exact Nat.ne_of_lt hlt (hone.eq_of_tag hi hj)
  table := hone.countP_tables_le
  tableFor shape slots hslots hshape := by
    obtain ⟨hp, -⟩ := h.tables slots hslots shape hshape
    obtain ⟨before, after, hsplit⟩ := List.append_of_mem hslots
    refine (tableFor_eq_some hp).mpr ⟨before, after, hsplit, hshape, fun other hother hagain => ?_⟩
    have hle := hone.countP_tables_le shape
    have hpos : 0 < after.countP (·.shape = some shape) :=
      List.countP_pos_iff.mpr ⟨other, hother, by simpa using hagain⟩
    rw [hsplit, List.countP_append, List.countP_cons_of_pos (by simpa using hshape)] at hle
    omega
  stream := hone.countP_streams_le hstreams

end Directed

end DecodeInput

/-! ### Tags of both sides

On the writing side an index comes from the module, on the reading side from the tag table. For a
module that was written the two agree. -/

namespace TagsIndexed

variable {input : DecodeInput} {shapes : List ShapeId} {m : Module}
  (h : TagsIndexed registry shapes m) (htags : input.tags.toList = tagsOf shapes)
include h htags

/-- A shape has on reading the tag index that it has in the module. Both name a shape once, so it
makes no difference that reading would take the last of several. -/
theorem shapeTag_eq {id : ShapeId} (hid : Tag.Registered registry (.shape id)) :
    input.shapeTag id = (m.tagIndex registry (.shape id)).toOption := by
  refine Option.ext fun i => ?_
  rw [DecodeInput.shapeTag_eq_some_iff h.nodup htags, ← h.tagIndex_eq_ok_iff _ i hid]
  cases m.tagIndex registry (.shape id) <;> simp [Except.toOption]

/-- A tag has the same stream on both sides. -/
theorem streamIndex_eq {tag : Tag} (htag : tag.Registered registry) :
    tag.streamIndex (fun id => (m.tagIndex registry (.shape id)).toOption) =
      tag.streamIndex input.shapeTag := by
  cases tag with
  | builtin b => rfl
  | shape id => rw [Tag.streamIndex, Tag.streamIndex, h.shapeTag_eq htags htag]

end TagsIndexed

/-! ### Reading the front of a module

`Directed` is read off the tag table, entry by entry, and off the directory. -/

/-- A tag table starts with built-in tags, in their order, and goes on with shapes. -/
theorem prefix_of_readTagTable {expected : Nat} {tags : List Tag}
    (h : readTagTable registry expected s = .ok tags t) :
    ∃ shapes, tags <+: tagsOf shapes ∧
      ∀ shape ∈ shapes, registry.lookup (registry.shapeName shape) = some shape := by
  obtain ⟨_, u, -, hloop⟩ := run_bind_eq_ok.mp h
  refine (Decode.replicate_induction (motive := fun done _ => ∃ shapes, done <+: tagsOf shapes ∧
    ∀ shape ∈ shapes, registry.lookup (registry.shapeName shape) = some shape) hloop
    ⟨[], List.nil_prefix, by simp⟩ ?_).2
  intro done v tag w _ ⟨shapes, hprefix, hshapes⟩ hentry
  obtain ⟨name, -, htag⟩ := readTagEntry_eq_ok.mp hentry
  obtain ⟨b, hbuiltin, -, rfl⟩ | ⟨hbuiltin, id, hlookup, rfl⟩ := htag
  · -- The next built-in tag goes on with the same table.
    refine ⟨shapes, ?_, hshapes⟩
    have hget : (tagsOf shapes)[done.length]? = some (.builtin b) := by
      rw [tagsOf, List.getElem?_append_left, List.getElem?_map, ← Builtin.ofIndex?, hbuiltin,
        Option.map_some]
      simpa using (List.getElem?_eq_some_iff.mp hbuiltin).1
    obtain ⟨hlt, hget⟩ := List.getElem?_eq_some_iff.mp hget
    rw [List.prefix_iff_eq_take] at hprefix ⊢
    rw [List.length_append, List.length_singleton, ← List.take_append_getElem hlt, hget, ← hprefix]
  · -- Behind all built-in tags, a shape goes on with the shapes that are there so far.
    have hall : Builtin.count ≤ done.length := List.getElem?_eq_none_iff.mp hbuiltin
    obtain rfl : registry.shapeName id = name := (Registry.lookup_eq_some hlookup).2
    refine ⟨shapes.take (done.length - Builtin.count) ++ [id], ?_, fun shape hshape => ?_⟩
    · rw [tagsOf, List.map_append, ← List.append_assoc, ← tagsOf,
        ← DecodeInput.eq_tagsOf_of_prefix hprefix hall]
      exact List.prefix_rfl
    · rcases List.mem_append.mp hshape with hshape | hshape
      · exact hshapes shape (List.mem_of_mem_take hshape)
      · obtain rfl := List.mem_singleton.mp hshape
        exact hlookup

/-- Only a partitioned directory has tables for single shapes. -/
theorem partitioned_of_objectSlots {tags : Array Tag} {offset first : Nat} {wire : WireFormat}
    {r r' : Reader} {objects : ObjectDirectory} {tables : List ObjectSlots}
    (hread : readObjectDirectory wire r = .ok objects r')
    (h : objectSlots registry tags offset first objects.entries = .ok tables) :
    ∀ slots ∈ tables, ∀ shape, slots.shape = some shape → wire.partitionedTables = true := by
  unfold readObjectDirectory at hread
  split at hread
  · rename_i hp
    exact fun _ _ _ _ => hp
  · rw [map_eq_pure_bind, run_bind_eq_ok] at hread
    obtain ⟨count, u, -, h₁⟩ := hread
    obtain ⟨rfl, -⟩ := run_pure_eq_ok.mp h₁
    intro slots hslots shape hshape
    simp only [ObjectDirectory.entries, objectSlots, ok_bind, Except.ok.injEq] at h
    subst h
    obtain rfl := List.mem_singleton.mp hslots
    simp at hshape

theorem directed_of_readInput {input : DecodeInput} (h : readInput registry s = .ok input t) :
    input.Directed registry := by
  obtain ⟨wire, s₁, directory, s₂, tags, s₃, strings, s₄, tables, -, hdirectory, htags, -,
    hallocate, rfl⟩ := readInput_eq_ok h
  obtain ⟨-, hslots, -⟩ := allocate_eq_ok hallocate
  obtain ⟨_, _, -, htable, -⟩ := Decode.inSection_eq_ok.mp htags
  obtain ⟨r, hread, -⟩ := Decode.fromInput_eq_ok.mp hdirectory
  obtain ⟨_, r₁, -, h₁⟩ := run_bind_eq_ok.mp hread
  obtain ⟨_, r₂, -, h₂⟩ := run_bind_eq_ok.mp h₁
  obtain ⟨_, r₃, -, h₃⟩ := run_bind_eq_ok.mp h₂
  obtain ⟨objects, r₄, hobjects, h₄⟩ := run_bind_eq_ok.mp h₃
  obtain ⟨rfl, -⟩ := run_pure_eq_ok.mp h₄
  refine ⟨prefix_of_readTagTable htable, fun slots hmem shape hshape => ⟨?_, ?_⟩⟩
  · exact partitioned_of_objectSlots hobjects hslots slots hmem shape hshape
  · exact (objectSlots_eq_ok hslots).2 slots hmem shape hshape

end Module

end SyntaxPack
