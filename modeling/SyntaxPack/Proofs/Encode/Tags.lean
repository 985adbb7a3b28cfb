import SyntaxPack.Module.Write
import SyntaxPack.Proofs.Lookup
import SyntaxPack.Proofs.Registry
import SyntaxPack.Proofs.Table.Finalized
/-!
# SyntaxPack.Proofs.Encode.Tags

The tag table of a module.

It lists the built-in tags and then the shapes in the order of their first use, none
of them twice, each under its own name. Nothing is ever merged in it, so in the
finalized table the index of a tag is its position in that list.

`TagTable` describes the table by the list of shapes in use, from the seeding on and after every shape
that is added. `TagsIndexed` is what is left of it once the table is finalized, and all that later
proofs know of the tags of a module: the names in their order, and which index a tag has.
-/

namespace SyntaxPack

/-! ### Names of tags

The table knows a tag by its name. Distinct tags have distinct names since the names of built-in
tags are reserved and the names of shapes are distinct, which a valid registry provides. -/

/-- A tag that values of a registered shape, or built-in values, can have. -/
def Tag.Registered (registry : Registry) : Tag → Prop
  | .builtin _ => True
  | .shape id => id.index < registry.shapes.length

theorem Tag.registered_builtin (registry : Registry) (b : Builtin) :
    (Tag.builtin b).Registered registry :=
  trivial

/-- No shape has the name of a built-in tag. -/
theorem Registry.Valid.shapeName_ne {registry : Registry} (hr : registry.Valid) {id : ShapeId}
    (h : id.index < registry.shapes.length) (b : Builtin) : registry.shapeName id ≠ b.name := by
  intro heq
  have hnone := hr.not_builtin _ (List.getElem_mem h)
  rw [← Registry.shapeName_eq h, heq, Builtin.ofName?_name] at hnone
  simp at hnone

/-- Different tags have different names. -/
theorem Registry.Valid.tagName_inj {registry : Registry} (hr : registry.Valid) {a b : Tag}
    (ha : a.Registered registry) (hb : b.Registered registry)
    (h : registry.tagName a = registry.tagName b) : a = b := by
  cases a with
  | builtin a =>
      cases b with
      | builtin b => exact congrArg Tag.builtin (Builtin.name_inj h)
      | shape id => exact absurd h.symm (hr.shapeName_ne hb a)
  | shape id =>
      cases b with
      | builtin b => exact absurd h (hr.shapeName_ne ha b)
      | shape other => exact congrArg Tag.shape (hr.shapeName_inj ha hb h)

/-- A list is what stands at its positions, one after another. -/
theorem filterMap_range {α : Type} (l : List α) :
    (List.range l.length).filterMap (l[·]?) = l := by
  induction l with
  | nil => rfl
  | cons a l ih =>
      rw [List.length_cons, List.range_succ_eq_map, List.filterMap_cons, List.filterMap_map]
      exact congrArg (a :: ·) ih

namespace Module

/-- The tags of a module in which some shapes are in use. -/
def tagsOf (shapes : List ShapeId) : List Tag := Builtin.all.map .builtin ++ shapes.map .shape

variable {registry : Registry} {shapes : List ShapeId} {shape : ShapeId} {tag : Tag}

theorem mem_tagsOf_shape : .shape shape ∈ tagsOf shapes ↔ shape ∈ shapes := by
  simp [tagsOf]

theorem mem_tagsOf_builtin (b : Builtin) : .builtin b ∈ tagsOf shapes := by
  simp [tagsOf, b.mem_all]

theorem getElem?_tagsOf_builtin (b : Builtin) :
    (tagsOf shapes)[b.seedIndex]? = some (.builtin b) := by
  rw [tagsOf, List.getElem?_append_left (by simpa using b.seedIndex_lt), List.getElem?_map,
    ← Builtin.ofIndex?, Builtin.ofIndex?_seedIndex, Option.map_some]

/-- The shapes stand behind the built-in tags, without gaps. -/
theorem getElem?_tagsOf_shape {i : Nat} : (tagsOf shapes)[i]? = some (.shape shape) ↔
    ∃ k, i = Builtin.count + k ∧ shapes[k]? = some shape := by
  have hlength : (Builtin.all.map Tag.builtin).length = Builtin.count := rfl
  by_cases hlt : i < Builtin.count
  · rw [tagsOf, List.getElem?_append_left hlt, List.getElem?_map]
    constructor
    · intro h
      obtain ⟨b, -, hb⟩ := Option.map_eq_some_iff.mp h
      cases hb
    · rintro ⟨k, rfl, -⟩
      omega
  · obtain ⟨k, rfl⟩ := Nat.exists_eq_add_of_le (Nat.le_of_not_lt hlt)
    rw [tagsOf, List.getElem?_append_right (by omega), hlength, Nat.add_sub_cancel_left,
      List.getElem?_map]
    simp

theorem tagsOf_inj {shapes' : List ShapeId} (h : tagsOf shapes = tagsOf shapes') :
    shapes = shapes' :=
  List.map_injective_iff.mpr (fun _ _ => Tag.shape.inj) (List.append_cancel_left h)

theorem nodup_tagsOf (h : shapes.Nodup) : (tagsOf shapes).Nodup := by
  refine List.nodup_append.mpr ⟨by decide, h.map fun _ _ => Tag.shape.inj, ?_⟩
  intro a ha b hb
  obtain ⟨x, -, rfl⟩ := List.mem_map.mp ha
  obtain ⟨y, -, rfl⟩ := List.mem_map.mp hb
  exact Tag.noConfusion

/-- A tag table that lists the built-in tags and then some shapes, each once and under its own name.
None of its entries is merged into another one. -/
structure TagTable (registry : Registry) (shapes : List ShapeId) (t : Table String Tag) :
    Prop where
  values : t.entries.map (·.value) = tagsOf shapes
  names : t.names = (tagsOf shapes).map registry.tagName
  live : t.entries.map (·.redirect) = t.entries.map fun _ => none
  nodup : shapes.Nodup
  registered : ∀ shape ∈ shapes, shape.index < registry.shapes.length

namespace TagTable

variable {t t' : Table String Tag}

theorem registered_of_mem (h : TagTable registry shapes t) (htag : tag ∈ tagsOf shapes) :
    tag.Registered registry := by
  cases tag with
  | builtin b => exact trivial
  | shape id => exact h.registered id (mem_tagsOf_shape.mp htag)

theorem redirect_eq (h : TagTable registry shapes t) {entry : Entry String Tag}
    (hentry : entry ∈ t.entries) : entry.redirect = none :=
  List.map_inj_left.mp h.live entry hentry

/-- Nothing is merged, so every handle leads to its own entry. -/
theorem link?_eq (h : TagTable registry shapes t) (a : Handle) : Table.link? t.entries a = none := by
  rw [Table.link?, Option.bind_eq_none_iff]
  exact fun _ hentry => h.redirect_eq (List.mem_of_getElem? hentry)

theorem resolve_eq (h : TagTable registry shapes t) (a : Handle) : t.resolve a = a :=
  Table.resolve_of_chain (.here (h.link?_eq a)) (Nat.zero_le _)

theorem wellFormed (h : TagTable registry shapes t) (hr : registry.Valid) : t.WellFormed := by
  refine ⟨?_, fun a ha => ?_⟩
  · have hnames := h.names
    rw [Table.names] at hnames
    rw [hnames]
    refine (nodup_tagsOf h.nodup).map_on fun a ha b hb heq => ?_
    exact hr.tagName_inj (h.registered_of_mem ha) (h.registered_of_mem hb) heq
  · exact ⟨0, a, .here (h.link?_eq a), Nat.zero_le _, _, List.getElem?_eq_getElem ha,
      h.redirect_eq (List.getElem_mem ha)⟩

theorem congr (h : TagTable registry shapes t) (hsame : t.SameEntries t') :
    TagTable registry shapes t' := by
  have hlength : t'.entries.length = t.entries.length := by
    simpa using congrArg List.length hsame.values
  refine ⟨hsame.values.trans h.values, hsame.names.trans h.names, ?_, h.nodup, h.registered⟩
  rw [hsame.redirects, h.live]
  simp [List.map_const', hlength]

/-- The entry of a tag has the position and the name of the tag. -/
theorem exists_entry (h : TagTable registry shapes t) {i : Nat}
    (hget : (tagsOf shapes)[i]? = some tag) :
    ∃ entry, t.entries[i]? = some entry ∧ entry.name = registry.tagName tag := by
  have hname : t.names[i]? = some (registry.tagName tag) := by
    rw [h.names, List.getElem?_map, hget, Option.map_some]
  rwa [Table.names, List.getElem?_map, Option.map_eq_some_iff] at hname

/-- A tag is found by its name if and only if it is listed. -/
theorem mem_names_iff (h : TagTable registry shapes t) (hr : registry.Valid)
    (htag : tag.Registered registry) : registry.tagName tag ∈ t.names ↔ tag ∈ tagsOf shapes := by
  rw [h.names, List.mem_map]
  constructor
  · rintro ⟨other, hother, heq⟩
    rwa [← hr.tagName_inj (h.registered_of_mem hother) htag heq]
  · exact fun hmem => ⟨tag, hmem, rfl⟩

theorem seeded (registry : Registry) (checkDivergence : Bool) :
    TagTable registry [] (seededTags checkDivergence) := by
  refine ⟨?_, ?_, ?_, List.nodup_nil, by simp⟩
  · simp [seededTags, tagsOf]
  · simp [seededTags, tagsOf, Table.names, Registry.tagName]
  · simp [seededTags]

/-- Adding the tag of a shape lists it, unless it is listed already. -/
theorem add (h : TagTable registry shapes t) (hr : registry.Valid)
    (hshape : shape.index < registry.shapes.length) {a : Handle}
    (hadd : t.add (registry.tagName (.shape shape)) (.shape shape) = .ok (a, t')) :
    t'.order = none ∧
      TagTable registry (if shape ∈ shapes then shapes else shapes ++ [shape]) t' := by
  have hmem : registry.tagName (.shape shape) ∈ t.names ↔ shape ∈ shapes :=
    (h.mem_names_iff hr (show Tag.Registered registry (.shape shape) from hshape)).trans
      mem_tagsOf_shape
  -- Either the name is there, and only the count of its uses changes, or an entry is appended.
  obtain ⟨horder, ⟨hget, rfl⟩ | ⟨hget, rfl, rfl⟩⟩ := Table.add_eq_ok hadd
  · have hshapes : shape ∈ shapes := hmem.mp (Table.mem_names_of_get? hget)
    have hsame := Table.sameEntries_addHits t a 1
    rw [if_pos hshapes]
    refine ⟨horder, hsame.values.trans h.values, hsame.names.trans h.names, ?_, h.nodup,
      h.registered⟩
    rw [hsame.redirects, h.live]
    refine List.ext_getElem? fun i => ?_
    simp only [List.getElem?_map, Table.getElem?_modify]
    split
    · cases t.entries[i]? <;> rfl
    · rfl
  · have hshapes : shape ∉ shapes := fun hs => Table.get?_eq_none_iff.mp hget (hmem.mpr hs)
    have htags : tagsOf (shapes ++ [shape]) = tagsOf shapes ++ [.shape shape] := by
      simp [tagsOf]
    rw [if_neg hshapes]
    refine ⟨horder, ?_, ?_, ?_, ?_, ?_⟩
    · simp [htags, h.values]
    · have hnames := h.names
      rw [Table.names] at hnames
      simp [Table.names, htags, hnames]
    · simp [h.live]
    · exact List.nodup_append.mpr ⟨h.nodup, List.nodup_singleton _, by
        rintro a ha b hb rfl
        exact hshapes (List.mem_singleton.mp hb ▸ ha)⟩
    · intro other hother
      rcases List.mem_append.mp hother with hother | hother
      · exact h.registered other hother
      · exact List.mem_singleton.mp hother ▸ hshape

/-! ### Indices of tags

Finalized in the order of insertion and with every entry live, the table gives each entry its
position as index. So a tag can be looked up in three ways, and all three come to its position in
the list: by its name in the table, by its shape in what the module keeps, or as a built-in tag by
its seed index. -/

theorem orderOf_eq (h : TagTable registry shapes t) :
    t.orderOf .insertion (fun _ => true) = (List.range t.entries.length).map Handle.mk := by
  have hlive : t.entries.zipIdx.filter (·.1.isLive) = t.entries.zipIdx := by
    refine List.filter_eq_self.mpr fun e he => ?_
    simp [Entry.isLive, h.redirect_eq (List.fst_mem_of_mem_zipIdx he)]
  simp only [Table.orderOf, Table.live, hlive]
  rw [List.filter_eq_self.mpr fun _ _ => rfl, List.map_map, List.range_eq_range',
    ← List.zipIdx_map_snd 0 t.entries, List.map_map]
  rfl

/-- In the finalized table every entry has its position as its index. -/
theorem getElem?_finalizeAll (h : TagTable registry shapes t) (horder : t.order = none) (i : Nat) :
    (t.finalizeAll .insertion).entries[i]? =
      t.entries[i]?.map fun e => { e with index := some i } := by
  simp only [Table.finalizeAll, Table.finalize, horder, List.getElem?_mapIdx, h.orderOf_eq]
  cases hentry : t.entries[i]? with
  | none => rfl
  | some e =>
      have hlt := (List.getElem?_eq_some_iff.mp hentry).1
      have hindex : ((List.range t.entries.length).map Handle.mk).idxOf? ⟨i⟩ = some i := by
        refine List.idxOf?_eq_some_iff.mpr ⟨by simpa using hlt, by simp, fun j hj => ?_⟩
        simp only [List.getElem_map, List.getElem_range, Handle.mk.injEq]
        omega
      simp [hindex]

theorem mem_shapeTagsOf (h : TagTable registry shapes t) (horder : t.order = none) {i : Nat} :
    (shape, i) ∈ shapeTagsOf (t.finalizeAll .insertion) ↔
      (tagsOf shapes)[i]? = some (.shape shape) := by
  rw [← h.values, List.getElem?_map]
  simp only [shapeTagsOf, List.mem_filterMap, Prod.exists, Table.mem_live,
    h.getElem?_finalizeAll horder, Option.map_eq_some_iff]
  constructor
  · rintro ⟨a, _, ⟨⟨e, he, rfl⟩, -⟩, hmatch⟩
    cases hvalue : e.value with
    | builtin b => simp [hvalue] at hmatch
    | shape id =>
        simp only [hvalue, Option.some.injEq, Prod.mk.injEq] at hmatch
        obtain ⟨rfl, rfl⟩ := hmatch
        exact ⟨e, he, hvalue⟩
  · rintro ⟨e, he, hvalue⟩
    refine ⟨⟨i⟩, _, ⟨⟨e, he, rfl⟩, ?_⟩, ?_⟩
    · simp [Entry.isLive, h.redirect_eq (List.mem_of_getElem? he)]
    · simp [hvalue]

end TagTable

/-- The finalized tags of a module: they are listed in their order, and the index of a
tag is its position there. -/
structure TagsIndexed (registry : Registry) (shapes : List ShapeId) (m : Module) : Prop where
  order : ∃ order, m.tags.order = some order ∧ order.length = (tagsOf shapes).length ∧
    (order.filterMap m.tags.entry?).map (·.name) = (tagsOf shapes).map registry.tagName
  size : m.tags.size = (tagsOf shapes).length
  nodup : shapes.Nodup
  registered : ∀ shape ∈ shapes, shape.index < registry.shapes.length
  tagIndex_eq_ok_iff : ∀ tag i, Tag.Registered registry tag →
    (m.tagIndex registry tag = .ok i ↔ (tagsOf shapes)[i]? = some tag)

/-- What is written for the tags is their number and their names. -/
theorem TagsIndexed.tagSection_eq {m : Module} (h : TagsIndexed registry shapes m)
    {writer : WriteInput} (hmodule : writer.module = m) : writer.tagSection =
      if (tagsOf shapes).length < UInt32.size then
        .ok (Bytes.fixed 4 (tagsOf shapes).length ++
          ((tagsOf shapes).map registry.tagName).flatMap Bytes.ofText)
      else .error (.encode (.sectionTooLarge "tags" (tagsOf shapes).length)) := by
  obtain ⟨order, horder, hlength, hnames⟩ := h.order
  simp only [WriteInput.tagSection, hmodule, Table.indexed, horder, Except.mapError, ok_bind, hnames,
    hlength, Bytes.ofCount]
  by_cases hlt : (tagsOf shapes).length < UInt32.size
  · simp only [if_pos hlt, ok_bind]
  · simp only [if_neg hlt]
    rfl

theorem getElem?_tagsOf_inj {i j : Nat} {tag : Tag} (hnodup : shapes.Nodup)
    (hi : (tagsOf shapes)[i]? = some tag) (hj : (tagsOf shapes)[j]? = some tag) : i = j := by
  obtain ⟨hlt, rfl⟩ := List.getElem?_eq_some_iff.mp hi
  obtain ⟨hlt', heq⟩ := List.getElem?_eq_some_iff.mp hj
  exact ((nodup_tagsOf hnodup).getElem_inj_iff.mp heq).symm

namespace TagTable

variable {t : Table String Tag} {m : Module} (h : TagTable registry shapes t)
  (horder : t.order = none) (htags : m.tags = t.finalizeAll .insertion)
include h

theorem length_entries : t.entries.length = (tagsOf shapes).length := by
  simpa using congrArg List.length h.values

include htags

/-- Finalization only adds the indices. -/
theorem finalized : TagTable registry shapes m.tags :=
  htags ▸ h.congr (t.sameEntries_finalize .insertion fun _ => true)

/-- The name of a tag that is not listed is unknown. -/
theorem indexOf_of_notMem (hr : registry.Valid) (htag : tag.Registered registry)
    (hmem : tag ∉ tagsOf shapes) :
    m.tags.indexOf (registry.tagName tag) =
      .error (.unknownName m.tags.label (EntryName.shown (registry.tagName tag))) := by
  have hnone : m.tags.get? (registry.tagName tag) = none :=
    Table.get?_eq_none_iff.mpr (mt ((h.finalized htags).mem_names_iff hr htag).mp hmem)
  simp only [Table.indexOf, Table.require, hnone]
  rfl

include horder

/-- The finalized tags are listed in the order in which they were added. -/
theorem entries_listed : ∃ order, m.tags.order = some order ∧
    order.length = (tagsOf shapes).length ∧ order.filterMap m.tags.entry? = m.tags.entries := by
  refine ⟨_, by rw [htags, Table.finalizeAll, Table.order_finalize horder], ?_, ?_⟩
  · rw [h.orderOf_eq, List.length_map, List.length_range, h.length_entries]
  · have hentry : ∀ i, Table.entry? m.tags ⟨i⟩ = m.tags.entries[i]? := fun i => by
      rw [Table.entry?, (h.finalized htags).resolve_eq]
    rw [h.orderOf_eq, List.filterMap_map, h.length_entries, ← (h.finalized htags).length_entries]
    exact (List.filterMap_congr fun i _ => hentry i).trans (filterMap_range m.tags.entries)

theorem names_listed : ∃ order, m.tags.order = some order ∧ order.length = (tagsOf shapes).length ∧
    (order.filterMap m.tags.entry?).map (·.name) = (tagsOf shapes).map registry.tagName := by
  obtain ⟨order, horder', hlength, hentries⟩ := h.entries_listed horder htags
  exact ⟨order, horder', hlength, hentries ▸ (h.finalized htags).names⟩

theorem values_listed : ∃ order, m.tags.indexed = .ok order ∧
    order.filterMap m.tags.value? = tagsOf shapes := by
  obtain ⟨order, horder', -, hentries⟩ := h.entries_listed horder htags
  refine ⟨order, by rw [Table.indexed, horder'], ?_⟩
  rw [← (h.finalized htags).values, ← hentries, List.map_filterMap]
  rfl

/-- The name of a tag is looked up as the position of the tag. -/
theorem indexOf_of_getElem? (hr : registry.Valid) {i : Nat}
    (hget : (tagsOf shapes)[i]? = some tag) :
    m.tags.indexOf (registry.tagName tag) = .ok i := by
  obtain ⟨order, hlisted, -⟩ := h.entries_listed horder htags
  obtain ⟨entry, hentry, hname⟩ := h.exists_entry hget
  have hfinal := h.finalized htags
  have hentry' : m.tags.entries[i]? = some { entry with index := some i } := by
    rw [htags, h.getElem?_finalizeAll horder, hentry, Option.map_some]
  have hfound : m.tags.get? (registry.tagName tag) = some ⟨i⟩ :=
    (hfinal.wellFormed hr).get?_eq_some_iff.mpr ⟨⟨i⟩, _, hentry', hname, hfinal.resolve_eq ⟨i⟩⟩
  refine Table.indexOf_eq_ok hlisted ?_
  rw [Table.index?, hfound, Option.bind_some, Table.entry?, hfinal.resolve_eq, hentry',
    Option.bind_some]

variable (hshapeTags : m.shapeTags = shapeTagsOf m.tags)
include hshapeTags

/-- The module keeps the position of a shape, and only of shapes that are listed. -/
theorem lookup_shapeTags {id : ShapeId} {i : Nat} :
    m.shapeTags.lookup id = some i ↔ (tagsOf shapes)[i]? = some (.shape id) := by
  have hmem : ∀ j, (id, j) ∈ m.shapeTags ↔ (tagsOf shapes)[j]? = some (.shape id) := fun j => by
    rw [hshapeTags, htags]
    exact h.mem_shapeTagsOf horder
  refine ⟨fun hlookup => (hmem i).mp (mem_of_lookup hlookup), fun hget => ?_⟩
  cases hlookup : m.shapeTags.lookup id with
  | none =>
      exact absurd (List.mem_map_of_mem ((hmem i).mpr hget)) (lookup_eq_none.mp hlookup)
  | some j => rw [getElem?_tagsOf_inj h.nodup ((hmem j).mp (mem_of_lookup hlookup)) hget]

/-- The index of a tag is the one under which its name is looked up. -/
theorem tagIndex_eq_indexOf (hr : registry.Valid) (htag : tag.Registered registry) :
    m.tagIndex registry tag = m.tags.indexOf (registry.tagName tag) := by
  cases tag with
  | builtin b => exact (h.indexOf_of_getElem? horder htags hr (getElem?_tagsOf_builtin b)).symm
  | shape id =>
      cases hlookup : m.shapeTags.lookup id with
      | none => simp only [tagIndex, hlookup]
      | some i =>
          have hget := (h.lookup_shapeTags horder htags hshapeTags).mp hlookup
          simp only [tagIndex, hlookup, h.indexOf_of_getElem? horder htags hr hget]

theorem indexed (hr : registry.Valid) : TagsIndexed registry shapes m := by
  refine ⟨h.names_listed horder htags, ?_, h.nodup, h.registered, fun tag i htag => ?_⟩
  · rw [htags, Table.finalizeAll, Table.size_finalize, Table.size, ← h.length_entries,
      List.countP_eq_length]
    exact fun e he => by simp [Entry.isLive, h.redirect_eq he]
  · rw [h.tagIndex_eq_indexOf horder htags hshapeTags hr htag]
    by_cases hmem : tag ∈ tagsOf shapes
    · obtain ⟨j, hj⟩ := List.getElem?_of_mem hmem
      rw [h.indexOf_of_getElem? horder htags hr hj, Except.ok.injEq]
      exact ⟨fun heq => heq ▸ hj, getElem?_tagsOf_inj h.nodup hj⟩
    · rw [h.indexOf_of_notMem htags hr htag hmem]
      exact ⟨fun heq => by simp at heq, fun hget => absurd (List.mem_of_getElem? hget) hmem⟩

end TagTable

end Module

end SyntaxPack
