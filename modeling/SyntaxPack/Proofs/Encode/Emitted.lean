import SyntaxPack.Proofs.Encode.Slots
/-!
# SyntaxPack.Proofs.Encode.Emitted

Where the tokens of a module go.

A section is made of two kinds of tokens only: bytes that stay in the section, and tokens
of a tag, which go to the stream of the tag. This holds of every section that is written,
whether or not all values fit, and whatever objects are written in place. Since the index
of a tag in a finalized table is a position in that table, every stream is that of one of
the tags.
-/

namespace SyntaxPack

namespace Table

variable {κ ν : Type} {t : Table κ ν}

/-- The index of an entry is below the number of entries. -/
theorem index_lt_of_finalize (horder : t.order = none) {ordering : TableOrdering}
    {keep : Entry κ ν → Bool} {entry : Entry κ ν} (h : entry ∈ (t.finalize ordering keep).entries)
    {i : Nat} (hi : entry.index = some i) : i < t.entries.length := by
  simp only [finalize, horder, List.mem_mapIdx] at h
  obtain ⟨slot, hslot, rfl⟩ := h
  have hlt : i < (t.orderOf ordering keep).length := (List.idxOf?_eq_some_iff.mp hi).1
  have hsize : t.size ≤ t.entries.length := List.countP_le_length
  have hlength := t.length_orderOf_le ordering keep
  omega

theorem length_entries_finalize (horder : t.order = none) (ordering : TableOrdering)
    (keep : Entry κ ν → Bool) : (t.finalize ordering keep).entries.length = t.entries.length := by
  simp only [finalize, horder, List.length_mapIdx]

end Table

namespace Module

variable {tree : Tree} {registry : Registry} {config : EncodingConfig} {m : Module}

/-! ### Indices of tags

The index of a tag is that of a built-in tag or comes from the table, where it is below the number
of entries. So the number of tags bounds the streams. -/

/-- The index of a tag in a finalized module is below the number of built-in tags, or it is
that of an entry. -/
theorem tagIndex_lt (horder : m.tags.order = none) {ordering : TableOrdering} {limit : Option Nat}
    {tag : Tag} {i : Nat} (h : (m.finalize ordering limit).tagIndex registry tag = .ok i) :
    i < Builtin.count ∨ i < m.tags.entries.length := by
  cases tag with
  | builtin b =>
      obtain rfl := Except.ok.inj h
      exact .inl b.seedIndex_lt
  | shape id =>
      refine .inr ?_
      unfold tagIndex at h
      simp only [finalize, Table.finalizeAll] at h
      split at h
      · rename_i index hlookup
        obtain rfl := Except.ok.inj h
        obtain ⟨⟨handle, entry⟩, hlive, hmatch⟩ := List.mem_filterMap.mp (mem_of_lookup hlookup)
        have hentry := List.mem_of_getElem? (Table.mem_live.mp hlive).1
        simp only at hmatch
        split at hmatch
        · rename_i found hvalue hindex
          obtain ⟨rfl, rfl⟩ := Prod.mk.inj (Option.some.inj hmatch)
          exact Table.index_lt_of_finalize horder hentry hindex
        · simp at hmatch
      · obtain ⟨handle, -, hat⟩ := bind_eq_ok.mp h
        unfold Table.indexAt at hat
        split at hat
        · split at hat
          · rename_i entry hentry
            split at hat
            · rename_i index hindex
              obtain rfl := Except.ok.inj hat
              exact Table.index_lt_of_finalize horder (List.mem_of_getElem? hentry) hindex
            · simp at hat
          · simp at hat
        · simp at hat

/-- What is built is finalized at the end, and its tags had no order before. -/
theorem exists_finalize_of_build (hr : registry.Valid)
    (h : Module.build tree registry config = .ok m) :
    ∃ open_ : Module, open_.tags.order = none ∧
      m = open_.finalize config.ordering config.inlineLimit := by
  obtain ⟨⟨walked, postOrder⟩, hwalk, h₁⟩ := bind_eq_ok.mp h
  have hw : WalkInput.Walked ⟨tree, registry, config⟩ walked postOrder :=
    WalkInput.walked_of_walk hr hwalk
  cases hdedupe : config.dedupe with
  | true =>
      simp only [hdedupe, if_true] at h₁
      obtain ⟨merged, hmerge, h₂⟩ := bind_eq_ok.mp h₁
      obtain rfl := Except.ok.inj h₂
      obtain ⟨shapes, rank, -, hmerged⟩ := hw.dedupe hmerge
      exact ⟨merged.2, hmerged.building.tags, rfl⟩
  | false =>
      simp only [hdedupe, Bool.false_eq_true, if_false] at h₁
      obtain rfl := Except.ok.inj h₁
      exact ⟨walked, hw.gathered.building.tags, rfl⟩

/-! ### Tokens

`EmitsAll` is closed under putting lists of tokens in a row, and that is how every program of the
writer makes its tokens. -/

namespace WriteInput

variable {w : WriteInput}

/-- The tokens that a module is made of. -/
inductive Emits (w : WriteInput) : Token → Prop
  | plain (bytes : List UInt8) : Emits w (plain bytes)
  | token (tag : Tag) (bytes : List UInt8) : Emits w (w.token tag bytes)

/-- All tokens of a list are among those that a module is made of. -/
def EmitsAll (w : WriteInput) (tokens : List Token) : Prop := ∀ token ∈ tokens, w.Emits token

/-- Writing the fields of an object in place makes tokens only. -/
def EmitsFields (w : WriteInput) (writeFields : ShapeId → NodeId → Except Error (List Token)) : Prop :=
  ∀ shape node tokens, writeFields shape node = .ok tokens → w.EmitsAll tokens

theorem EmitsAll.nil : w.EmitsAll [] := by
  intro token h
  simp at h

theorem EmitsAll.cons {token : Token} {tokens : List Token} (h : w.Emits token)
    (hrest : w.EmitsAll tokens) : w.EmitsAll (token :: tokens) := by
  intro other hother
  rcases List.mem_cons.mp hother with rfl | hother
  · exact h
  · exact hrest other hother

theorem EmitsAll.singleton {token : Token} (h : w.Emits token) : w.EmitsAll [token] :=
  .cons h .nil

theorem EmitsAll.append {tokens more : List Token} (h : w.EmitsAll tokens)
    (hmore : w.EmitsAll more) : w.EmitsAll (tokens ++ more) := by
  intro token htoken
  rcases List.mem_append.mp htoken with htoken | htoken
  · exact h token htoken
  · exact hmore token htoken

/-- Parts that are written one after another, each of them for an item of a list. -/
theorem EmitsAll.flatten {α : Type} {f : α → Except Error (List Token)} {items : List α}
    {parts : List (List Token)} (h : items.mapM f = .ok parts)
    (hf : ∀ item tokens, f item = .ok tokens → w.EmitsAll tokens) : w.EmitsAll parts.flatten := by
  intro token htoken
  obtain ⟨part, hpart, htoken⟩ := List.mem_flatten.mp htoken
  obtain ⟨item, -, hitem⟩ := exists_left_of_forall₂ (mapM_eq_ok.mp h) hpart
  exact hf item part hitem token htoken

theorem emits_tagToken {tag : Tag} {token : Token} (h : w.tagToken tag = .ok token) :
    w.Emits token := by
  obtain ⟨index, -, h₁⟩ := bind_eq_ok.mp h
  obtain ⟨bytes, -, h₂⟩ := bind_eq_ok.mp h₁
  exact Except.ok.inj h₂ ▸ .token _ _

theorem emits_referenceToken {tag : Tag} {table : String} {index : Option Nat} {token : Token}
    (h : w.referenceToken tag table index = .ok token) : w.Emits token := by
  obtain ⟨bytes, -, h₁⟩ := bind_eq_ok.mp h
  exact Except.ok.inj h₁ ▸ .token _ _

/-- A reference that stands alone in its slot. -/
theorem emits_reference {tag : Tag} {table : String} {index : Option Nat} {tokens : List Token}
    (h : (do .ok [← w.referenceToken tag table index] : Except Error (List Token)) = .ok tokens) :
    w.EmitsAll tokens := by
  obtain ⟨token, htoken, h₁⟩ := bind_eq_ok.mp h
  exact Except.ok.inj h₁ ▸ .singleton (emits_referenceToken htoken)

theorem emits_countToken {label : String} {count : Nat} {token : Token}
    (h : countToken label count = .ok token) : w.Emits token := by
  obtain ⟨bytes, -, h₁⟩ := bind_eq_ok.mp h
  exact Except.ok.inj h₁ ▸ .plain _

/-! ### Slots

The cases of the writer, without a look at whether a value fits: whatever is returned is made of
tokens. -/

theorem emits_nullObjectSlot {expected : Option ShapeId} {tokens : List Token}
    (h : w.nullObjectSlot expected = .ok tokens) : w.EmitsAll tokens := by
  unfold nullObjectSlot at h
  split at h
  · obtain ⟨token, htoken, h₁⟩ := bind_eq_ok.mp h
    exact Except.ok.inj h₁ ▸ .singleton (emits_tagToken htoken)
  · exact emits_reference h

theorem emits_objectSlot {writeFields : ShapeId → NodeId → Except Error (List Token)}
    {expected : Option ShapeId} {site : Site} {node : NodeId} {tokens : List Token}
    (hfields : w.EmitsFields writeFields)
    (h : w.objectSlot writeFields expected site node = .ok tokens) : w.EmitsAll tokens := by
  obtain ⟨shape, -, h₁⟩ := bind_eq_ok.mp h
  cases hexpected : expected.any (· ≠ shape) with
  | true => simp only [hexpected, if_true, throw_bind, reduceCtorEq] at h₁
  | false =>
      simp only [hexpected, Bool.false_eq_true, if_false] at h₁
      split at h₁
      · exact absurd h₁ throw_ne_ok
      · rename_i table htable
        obtain ⟨handle, -, h₂⟩ := bind_eq_ok.mp h₁
        split at h₂
        · -- With a marker in front: a reference, or the fields in place.
          split at h₂
          · rename_i index hindex
            obtain ⟨marker, hmarker, h₃⟩ := bind_eq_ok.mp h₂
            obtain ⟨bytes, -, h₄⟩ := bind_eq_ok.mp h₃
            exact Except.ok.inj h₄ ▸ .cons (emits_tagToken hmarker) (.singleton (.token _ _))
          · obtain ⟨marker, hmarker, h₃⟩ := bind_eq_ok.mp h₂
            obtain ⟨fields, hwrite, h₄⟩ := bind_eq_ok.mp h₃
            exact Except.ok.inj h₄ ▸ .cons (emits_tagToken hmarker) (hfields _ _ _ hwrite)
        · split at h₂
          · exact emits_reference h₂
          · exact absurd h₂ throw_ne_ok

theorem emits_underTag {writeFields : ShapeId → NodeId → Except Error (List Token)} {tag : Tag}
    {nullable : Bool} {site : Site} {value : Value} {tokens : List Token}
    (hfields : w.EmitsFields writeFields)
    (h : w.underTag writeFields tag nullable site value = .ok tokens) : w.EmitsAll tokens := by
  unfold underTag at h
  split at h
  · exact Except.ok.inj h ▸ .nil
  · exact Except.ok.inj h ▸ .nil
  · exact Except.ok.inj h ▸ .nil
  · split at h
    · exact Except.ok.inj h ▸ .singleton (.token _ _)
    · simp at h
  · exact Except.ok.inj h ▸ .singleton (.token _ _)
  · obtain ⟨index, -, h₁⟩ := bind_eq_ok.mp h
    exact emits_reference h₁
  · obtain ⟨index, -, h₁⟩ := bind_eq_ok.mp h
    exact emits_reference h₁
  · exact emits_objectSlot hfields h
  · exact emits_objectSlot hfields h
  · -- What is stored under no tag of its own is null, or an error.
    have hmismatch : ∀ tokens, (do
        let found ← Tag.of w.tree w.registry value
        throw (mismatch site (w.registry.tagName tag) (w.registry.tagName found)) :
        Except Error (List Token)) ≠ .ok tokens := by
      intro tokens h
      obtain ⟨found, -, h₁⟩ := bind_eq_ok.mp h
      exact throw_ne_ok h₁
    simp only at h
    split at h
    · split at h
      · exact emits_reference h
      · exact emits_reference h
      · exact emits_nullObjectSlot h
      · exact emits_nullObjectSlot h
      · exact absurd h (hmismatch tokens)
    · exact absurd h (hmismatch tokens)

theorem emits_slot {writeFields : ShapeId → NodeId → Except Error (List Token)} {codec : Codec}
    {site : Site} {value : Value} {tokens : List Token} (hfields : w.EmitsFields writeFields)
    (h : w.slot writeFields codec site value = .ok tokens) : w.EmitsAll tokens := by
  cases codec with
  | fixed tag nullable => exact emits_underTag hfields h
  | tagged decl =>
      obtain ⟨tag, -, h₁⟩ := bind_eq_ok.mp h
      cases haccepts : decl.accepts tag with
      | false => simp only [haccepts, Bool.not_false, if_true, throw_bind, reduceCtorEq] at h₁
      | true =>
          simp only [haccepts, Bool.not_true, Bool.false_eq_true, if_false] at h₁
          obtain ⟨marker, hmarker, h₂⟩ := bind_eq_ok.mp h₁
          obtain ⟨rest, hrest, h₃⟩ := bind_eq_ok.mp h₂
          exact Except.ok.inj h₃ ▸ .cons (emits_tagToken hmarker) (emits_underTag hfields hrest)

theorem emitsFields_fieldSlots {writeFields : ShapeId → NodeId → Except Error (List Token)}
    (hfields : w.EmitsFields writeFields) : w.EmitsFields (w.fieldSlots writeFields) := by
  intro shape node tokens h
  obtain ⟨object, -, h₁⟩ := bind_eq_ok.mp h
  obtain ⟨slots, hslots, h₂⟩ := bind_eq_ok.mp h₁
  exact Except.ok.inj h₂ ▸ .flatten hslots fun _ _ hslot => emits_slot hfields hslot

/-- By induction on how deep objects in place are nested. -/
theorem emitsFields_fieldsWithin (depth : Nat) : w.EmitsFields (w.fieldsWithin depth) := by
  induction depth with
  | zero =>
      intro shape node tokens h
      simp [fieldsWithin] at h
  | succ depth ih => exact emitsFields_fieldSlots ih

theorem emitsFields_objectFields : w.EmitsFields w.objectFields := emitsFields_fieldsWithin _

/-! ### Sections -/

theorem emits_objectSection {table : UniqueTable NodeId} {tokens : List Token}
    (h : w.objectSection table = .ok tokens) : w.EmitsAll tokens := by
  obtain ⟨order, -, h₁⟩ := bind_eq_ok.mp h
  obtain ⟨count, hcount, h₂⟩ := bind_eq_ok.mp h₁
  obtain ⟨entries, hentries, h₃⟩ := bind_eq_ok.mp h₂
  refine Except.ok.inj h₃ ▸ .cons (emits_countToken hcount) (.flatten hentries ?_)
  intro node tokens hentry
  obtain ⟨shape, -, h₄⟩ := bind_eq_ok.mp hentry
  obtain ⟨marker, hmarker, h₅⟩ := bind_eq_ok.mp h₄
  obtain ⟨fields, hwrite, h₆⟩ := bind_eq_ok.mp h₅
  exact Except.ok.inj h₆ ▸ .cons (emits_tagToken hmarker) (emitsFields_objectFields _ _ _ hwrite)

theorem emits_arrayEntry {id : NodeId} {tokens : List Token} (h : w.arrayEntry id = .ok tokens) :
    w.EmitsAll tokens := by
  obtain ⟨elements, -, h₁⟩ := bind_eq_ok.mp h
  split at h₁
  · exact Except.ok.inj h₁ ▸ .singleton (.plain _)
  · split at h₁
    · simp at h₁
    · obtain ⟨marker, hmarker, h₂⟩ := bind_eq_ok.mp h₁
      obtain ⟨slots, hslots, h₃⟩ := bind_eq_ok.mp h₂
      exact Except.ok.inj h₃ ▸ .cons (.plain _) (.cons (emits_tagToken hmarker)
        (.flatten hslots fun _ _ hslot => emits_slot emitsFields_objectFields hslot))

theorem emits_arraySection {tokens : List Token} (h : w.arraySection = .ok tokens) :
    w.EmitsAll tokens := by
  obtain ⟨order, -, h₁⟩ := bind_eq_ok.mp h
  obtain ⟨count, hcount, h₂⟩ := bind_eq_ok.mp h₁
  obtain ⟨entries, hentries, h₃⟩ := bind_eq_ok.mp h₂
  exact Except.ok.inj h₃ ▸ .cons (emits_countToken hcount)
    (.flatten hentries fun _ _ hentry => emits_arrayEntry hentry)

theorem emits_rootSection {tokens : List Token} (h : w.rootSection = .ok tokens) :
    w.EmitsAll tokens :=
  emits_slot emitsFields_objectFields h

end WriteInput

/-- The stream of a token is that of one of the tags. -/
theorem Located.stream_lt {shapes : List ShapeId} {rank : NodeId → Nat} (hr : registry.Valid)
    (hbuild : Module.build tree registry config = .ok m)
    (h : Located ⟨tree, registry, config⟩ shapes rank m) {token : Token}
    (htoken : (WalkInput.writer ⟨tree, registry, config⟩ m).Emits token) {i : Nat}
    (hi : token.stream = some i) : i < (tagsOf shapes).length := by
  obtain ⟨building, horder, rfl⟩ := exists_finalize_of_build hr hbuild
  have hlength : building.tags.entries.length = (tagsOf shapes).length := by
    rw [← h.filled.tags.length_entries]
    exact (Table.length_entries_finalize horder _ _).symm
  have hbuiltin : Builtin.count ≤ (tagsOf shapes).length := by
    simp [tagsOf]
  have hseed : ∀ b : Builtin, b.seedIndex < (tagsOf shapes).length := fun b =>
    Nat.lt_of_lt_of_le b.seedIndex_lt hbuiltin
  cases htoken with
  | plain bytes => exact absurd hi (by simp [WriteInput.plain])
  | token tag bytes =>
      obtain rfl := Option.some.inj hi
      cases tag with
      | builtin b => exact hseed b
      | shape id =>
          simp only [Tag.streamIndex]
          cases hindex : (building.finalize config.ordering config.inlineLimit).tagIndex registry
              (.shape id) with
          | error e => exact hseed .object
          | ok index =>
              rcases tagIndex_lt horder hindex with hlt | hlt
              · exact Nat.lt_of_lt_of_le hlt hbuiltin
              · exact hlength ▸ hlt

end Module

end SyntaxPack
