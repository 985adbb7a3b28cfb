import SyntaxPack.Proofs.Encode.Slots
import SyntaxPack.Proofs.Written
/-!
# SyntaxPack.Proofs.Encode.Tokens

The tokens of a finalized module.

The walk has checked everything that the writer checks again, and finalization has
given everything an index that the writer looks up. What is left to fail are the widths
of numbers: a section with too many entries or bytes, and an index beyond what its
encoding carries. `Yields` says that a program fails in no other way, and what holds of
its result if it does not; of tokens, that they are `Proper`.

The lemmas follow the writer: tokens, slots, fields, entries and sections. `Yields` is closed under
`>>=` and `mapM`, so each of them is the writer's own program with a lemma for every step, and the
reasons why a step cannot fail are all of one of these kinds:

* the tag is listed, because the value is in a table (`Built.tagIndex_eq_ok`);
* the node has an index, because its representative was kept (`Built.object`, `Built.array`);
* the value fits where it stands, because the walk has checked it (`FitsSlot`).

Objects in place are written by recursion on a bound of the depth. That it suffices is shown with
the numbers of the nodes, which fall from an object to what it holds (`writes_fieldsWithin`).
-/

namespace SyntaxPack

/-! ### Programs that fail only for want of room

An overflow names where it happened. Indices are only ever too large for `fixed24`, unless a table
has more entries than references can tell apart. -/

/-- A token that can be found again: it has bytes, and its stream is that of one of the tags. -/
structure Token.Proper (tags : Nat) (token : Token) : Prop where
  bytes_ne_nil : token.bytes ≠ []
  stream_lt : ∀ index, token.stream = some index → index < tags

namespace Module

/-- No table has more entries than there are 32-bit references, the absent one aside. -/
structure Indexable (m : Module) : Prop where
  tags : m.tags.size < UInt32.size - 1
  strings : m.strings.size < UInt32.size - 1
  arrays : m.arrays.size < UInt32.size - 1
  objects : ∀ table ∈ m.objects.tables, table.table.size < UInt32.size - 1

/-- The errors of numbers that do not fit where they are written: a count or length of a section, or
an index. The second kind is possible with `fixed24` alone, as long as the tables are small enough.
-/
inductive Overflow (m : Module) (enc : IndexEncoding) : Error → Prop
  | size (label : String) (count : Nat) : Overflow m enc (.encode (.sectionTooLarge label count))
  | index (table : String) (value : Nat) (h : m.Indexable → enc = .fixed24) :
      Overflow m enc (.encode (.indexOverflow table value enc))

/-- A program returns what has a property, unless a number overflows. It may well overflow: whether
it does is not said. -/
structure Yields {α : Type} (m : Module) (enc : IndexEncoding) (x : Except Error α)
    (good : α → Prop) : Prop where
  error : ∀ e, x = .error e → Overflow m enc e
  result : ∀ a, x = .ok a → good a

namespace Yields

variable {α β : Type} {m : Module} {enc : IndexEncoding} {good : α → Prop} {good' : β → Prop}

theorem ok {a : α} (h : good a) : Yields m enc (.ok a) good := by
  refine ⟨fun e he => ?_, fun b hb => ?_⟩
  · simp at he
  · exact Except.ok.inj hb ▸ h

theorem bind {x : Except Error α} {f : α → Except Error β} (hx : Yields m enc x good)
    (hf : ∀ a, good a → Yields m enc (f a) good') : Yields m enc (x >>= f) good' := by
  refine ⟨fun e h => ?_, fun b h => ?_⟩
  · rcases bind_eq_error.mp h with h | ⟨a, ha, h⟩
    · exact hx.error e h
    · exact (hf a (hx.result a ha)).error e h
  · obtain ⟨a, ha, h⟩ := bind_eq_ok.mp h
    exact (hf a (hx.result a ha)).result b h

theorem weaken {x : Except Error α} {good' : α → Prop} (hx : Yields m enc x good)
    (h : ∀ a, good a → good' a) : Yields m enc x good' :=
  ⟨hx.error, fun a ha => h a (hx.result a ha)⟩

/-- A program that is run on every item of a list. -/
theorem mapM {f : α → Except Error β} {xs : List α} (h : ∀ x ∈ xs, Yields m enc (f x) good') :
    Yields m enc (xs.mapM f) fun ys => ys.length = xs.length ∧ ∀ y ∈ ys, good' y := by
  refine ⟨fun e he => ?_, fun ys hys => ?_⟩
  · obtain ⟨done, x, rest, -, rfl, -, hfx⟩ := mapM_eq_error he
    exact (h x (List.mem_append_right done List.mem_cons_self)).error e hfx
  · have hall := mapM_eq_ok.mp hys
    refine ⟨hall.length_eq.symm, fun y hy => ?_⟩
    obtain ⟨x, hx, hfx⟩ := exists_left_of_forall₂ hall hy
    exact (h x hx).result y hfx

/-- A token of at most 32 bits is written, with at least a byte, unless it is too large for the
encoding. Then the encoding is `fixed24`, if tables are small enough for the value to have 32 bits.
-/
theorem writeToken {label : String} {value : Nat} (h : m.Indexable → value < UInt32.size) :
    Yields m enc ((enc.writeToken label value).mapError .encode) (· ≠ []) := by
  refine ⟨fun e he => ?_, fun bytes hbytes =>
    IndexEncoding.writeToken_ne_nil (mapError_eq_ok.mp hbytes)⟩
  obtain ⟨err, herr, rfl⟩ := mapError_eq_error.mp he
  obtain ⟨hlarge, rfl⟩ := IndexEncoding.writeToken_eq_error_iff.mp herr
  refine .index label value fun hm => ?_
  have hvalue : value < 4294967296 := h hm
  cases enc with
  | fixed24 => rfl
  | varint | fixed32 =>
      simp only [IndexEncoding.maxToken] at hlarge
      -- With the other encodings every value of 32 bits fits.
      omega

theorem ofCount {label : String} {count : Nat} :
    Yields m enc ((Bytes.ofCount label count).mapError .encode) (· ≠ []) := by
  refine ⟨fun e he => ?_, fun bytes hbytes => ?_⟩
  · obtain ⟨err, herr, rfl⟩ := mapError_eq_error.mp he
    obtain ⟨-, rfl⟩ := Bytes.ofCount_eq_error_iff.mp herr
    exact .size label count
  · obtain ⟨-, rfl⟩ := Bytes.ofCount_eq_ok_iff.mp (mapError_eq_ok.mp hbytes)
    simp [Bytes.fixed]

theorem framed {label : String} {body : List UInt8} :
    Yields m enc ((Bytes.framed label body).mapError .encode) fun _ => True := by
  refine ⟨fun e he => ?_, fun _ _ => trivial⟩
  obtain ⟨err, herr, rfl⟩ := mapError_eq_error.mp he
  obtain ⟨-, rfl⟩ := Bytes.framed_eq_error_iff.mp herr
  exact .size label body.length

end Yields

/-- Whatever is kept in a table has an index below the number of its entries. -/
theorem lt_size_of_keys {κ : Type} [DecidableEq κ] {t : UniqueTable κ} (hf : t.Finalized)
    {index : Nat} {x : κ} (h : t.keys[index]? = some x) : index < t.size :=
  Nat.lt_of_lt_of_le (List.getElem?_eq_some_iff.mp h).1 hf.length_keys_le

/-- All tokens of a list are proper. -/
def AllProper (shapes : List ShapeId) (tokens : List Token) : Prop :=
  ∀ token ∈ tokens, token.Proper (tagsOf shapes).length

namespace AllProper

variable {shapes : List ShapeId} {tokens : List Token} {token : Token}

theorem nil : AllProper shapes [] := by
  intro token h
  simp at h

theorem cons (h : token.Proper (tagsOf shapes).length) (hrest : AllProper shapes tokens) :
    AllProper shapes (token :: tokens) := by
  intro other hother
  rcases List.mem_cons.mp hother with rfl | hother
  · exact h
  · exact hrest other hother

theorem singleton (h : token.Proper (tagsOf shapes).length) : AllProper shapes [token] :=
  cons h nil

theorem append {more : List Token} (h : AllProper shapes tokens) (hmore : AllProper shapes more) :
    AllProper shapes (tokens ++ more) := by
  intro token htoken
  rcases List.mem_append.mp htoken with htoken | htoken
  · exact h token htoken
  · exact hmore token htoken

theorem flatten {parts : List (List Token)} (h : ∀ part ∈ parts, AllProper shapes part) :
    AllProper shapes parts.flatten := by
  intro token htoken
  obtain ⟨part, hpart, htoken⟩ := List.mem_flatten.mp htoken
  exact h part hpart token htoken

/-- Entries that all have tokens have at least as many tokens as there are entries. -/
theorem length_le_flatten {parts : List (List Token)} (h : ∀ part ∈ parts, part ≠ []) :
    parts.length ≤ parts.flatten.length := by
  induction parts with
  | nil => exact Nat.le_refl 0
  | cons part parts ih =>
      have hpart := List.length_pos_iff.mpr (h part List.mem_cons_self)
      have := ih fun other hother => h other (List.mem_cons_of_mem part hother)
      rw [List.flatten_cons, List.length_append, List.length_cons]
      omega

end AllProper

namespace Built

open WriteInput (slotTag)

variable {input : WalkInput} {shapes : List ShapeId} {rank : NodeId → Nat} {m : Module}
  {id : NodeId} {shape : ShapeId} {value : Value} {tag : Tag}

/-- Tokens are written for all values that fit, under the encoding of the module. -/
abbrev Writes {α : Type} (input : WalkInput) (m : Module) (x : Except Error α)
    (good : α → Prop) : Prop :=
  Yields m input.config.indexEncoding x good

variable (h : Built input shapes rank m)
include h

/-! ### Tokens

A token goes to the stream of a tag. That the stream exists is what is asked of it when streams are
put together. -/

theorem tagIndex_eq_ok (htag : tag ∈ tagsOf shapes) : ∃ index,
    m.tagIndex input.registry tag = .ok index ∧ (tagsOf shapes)[index]? = some tag := by
  obtain ⟨index, hindex⟩ := List.getElem?_of_mem htag
  exact ⟨index, (h.tags.tagIndex_eq_ok_iff tag index
    (h.filled.tags.registered_of_mem htag)).mpr hindex, hindex⟩

/-- The stream of a tag is its own or, for a shape without a tag, that of `object`. -/
theorem proper_token (htag : tag.Registered input.registry) {bytes : List UInt8} (hbytes : bytes ≠ []) :
    ((input.writer m).token tag bytes).Proper (tagsOf shapes).length := by
  have hbuiltin : ∀ b : Builtin, b.seedIndex < (tagsOf shapes).length := fun b =>
    (List.getElem?_eq_some_iff.mp (getElem?_tagsOf_builtin b)).1
  refine ⟨hbytes, fun index hindex => ?_⟩
  obtain rfl := Option.some.inj hindex
  cases tag with
  | builtin b => exact hbuiltin b
  | shape id =>
      simp only [Tag.streamIndex]
      cases hid : m.tagIndex input.registry (.shape id) with
      | error e => exact hbuiltin .object
      | ok i =>
          have hget := (h.tags.tagIndex_eq_ok_iff _ i htag).mp hid
          exact (List.getElem?_eq_some_iff.mp hget).1

theorem writes_tagToken (htag : tag ∈ tagsOf shapes) :
    Writes input m ((input.writer m).tagToken tag) (·.Proper (tagsOf shapes).length) := by
  obtain ⟨index, hok, hindex⟩ := h.tagIndex_eq_ok htag
  have hlt : index < m.tags.size := by
    rw [h.tags.size]
    exact (List.getElem?_eq_some_iff.mp hindex).1
  simp only [WriteInput.tagToken, hok, Except.mapError, ok_bind]
  refine .bind (.writeToken fun hm => ?_) fun bytes hbytes =>
    .ok (h.proper_token (Tag.registered_builtin _ _) hbytes)
  have := hm.tags
  omega

theorem writes_referenceToken (htag : tag.Registered input.registry) {table : String}
    {index : Option Nat} (hindex : m.Indexable → ∀ i, index = some i → i < UInt32.size - 1) :
    Writes input m ((input.writer m).referenceToken tag table index)
      (·.Proper (tagsOf shapes).length) := by
  refine .bind (.writeToken fun hm => ?_) fun bytes hbytes => .ok (h.proper_token htag hbytes)
  cases index with
  | none => exact Nat.zero_lt_succ _
  | some i =>
      have hi := hindex hm i rfl
      have hsize : UInt32.size = 4294967296 := rfl
      simp only [Option.elim_some]
      omega

/-! ### Slots

Where objects may be written in place, a slot holds the fields of another object. What is asked of
these is a hypothesis, about all objects that may stand for the one in the slot. -/

/-- The index of an object fits into 32 bits. -/
theorem object_index_lt {t : UniqueTable NodeId} (ht : m.objects.table? shape = some t) {index : Nat}
    (hindex : t.keys[index]? = some id) (hm : m.Indexable) : index < UInt32.size - 1 := by
  obtain ⟨table, hmem, -, rfl⟩ := ObjectTables.exists_mem_of_table? ht
  exact Nat.lt_trans (lt_size_of_keys (h.objects shape _ ht) hindex) (hm.objects table hmem)

/-- An object slot is written if the fields of every object of the same number are, in case objects
are written in place. Which object that is depends on merging, but its number does not. -/
theorem writes_objectSlot (hid : m.HasNode input.tree input.registry id)
    (hshape : input.tree.shape? input.registry id = some shape) {expected : Option ShapeId}
    (hexpected : expected.all (· = shape) = true) {site : Site}
    {writeFields : ShapeId → NodeId → Except Error (List Token)}
    (hfields : input.config.inlineObjects = true → ∀ survivor,
      m.HasNode input.tree input.registry survivor → input.tree.shape? input.registry survivor =
        some shape → rank survivor = rank id →
      Writes input m (writeFields shape survivor) (AllProper shapes)) :
    Writes input m ((input.writer m).objectSlot writeFields expected site id)
      (AllProper shapes) := by
  have hobject := (hasNode_object_iff hshape).mp hid
  obtain ⟨t, entry, survivor, hfound⟩ := h.object hshape hobject
  have hlisted := mem_tagsOf_shape.mpr (h.filled.mem_shapes shape id hshape hobject)
  have hslotTag : (slotTag expected).Registered input.registry := by
    cases expected with
    | none => exact trivial
    | some other =>
        obtain rfl : other = shape := by simpa using hexpected
        exact h.filled.tags.registered_of_mem hlisted
  -- A reference behind a marker, the object in place, or a reference without a marker.
  rcases objectSlot_cases hshape hfound hexpected writeFields site with
    ⟨-, index, hkey, heq⟩ | ⟨hinline, -, heq⟩ | ⟨-, index, hkey, heq⟩
  · rw [heq]
    refine .bind (h.writes_tagToken (mem_tagsOf_builtin _)) fun marker hmarker =>
      .bind (.writeToken fun hm => ?_) fun bytes hbytes =>
      .ok (.cons hmarker (.singleton (h.proper_token hslotTag hbytes)))
    have hlt := h.object_index_lt hfound.table hkey hm
    omega
  · rw [heq]
    exact .bind (h.writes_tagToken hlisted) fun marker hmarker =>
      .bind (hfields hinline survivor hfound.hasNode hfound.shape_eq hfound.rank_eq)
        fun fields hproper => .ok (.cons hmarker hproper)
  · rw [heq]
    refine .bind (h.writes_referenceToken hslotTag fun hm i hi => ?_)
      fun token htoken => .ok (.singleton htoken)
    exact Option.some.inj hi ▸ h.object_index_lt hfound.table hkey hm

theorem writes_nullObjectSlot {expected : Option ShapeId}
    (htag : (slotTag expected).Registered input.registry) :
    Writes input m ((input.writer m).nullObjectSlot expected) (AllProper shapes) := by
  simp only [WriteInput.nullObjectSlot]
  split
  · exact .bind (h.writes_tagToken (mem_tagsOf_builtin _)) fun _ htoken => .ok (.singleton htoken)
  · exact .bind (h.writes_referenceToken htag fun _ i hi => by simp at hi)
      fun _ htoken => .ok (.singleton htoken)

/-- A value is written under every tag that it is stored under. The cases are those of `Tag.Stored`:
one for each kind of value, and one for null under the tag of a reference. -/
theorem writes_underTag {nullable : Bool}
    (hstored : Tag.Stored input.tree input.registry tag nullable value)
    (hregistered : tag.Registered input.registry)
    (hholds : m.Holds input.tree input.registry value) {site : Site}
    {writeFields : ShapeId → NodeId → Except Error (List Token)}
    (hfields : input.config.inlineObjects = true → ∀ id, value.node? = some id → ∀ shape survivor,
      m.HasNode input.tree input.registry survivor →
      input.tree.shape? input.registry survivor = some shape → rank survivor = rank id →
      Writes input m (writeFields shape survivor) (AllProper shapes)) :
    Writes input m ((input.writer m).underTag writeFields tag nullable site value)
      (AllProper shapes) := by
  cases hstored with
  | null | trueValue | falseValue => exact .ok .nil
  | integer _ hpayload =>
      simp only [WriteInput.underTag, hpayload]
      exact .ok (.singleton
        (h.proper_token (Tag.registered_builtin _ _) (IndexEncoding.writeInteger_ne_nil _ _)))
  | double =>
      have hbytes : ∀ d, Bytes.ofDouble d ≠ [] := fun d => by simp [Bytes.ofDouble, Bytes.fixed]
      exact .ok (.singleton (h.proper_token (Tag.registered_builtin _ _) (hbytes _)))
  | string _ s =>
      obtain ⟨index, hok, hkey⟩ := h.string hholds
      simp only [WriteInput.underTag, hok, Except.mapError, ok_bind]
      refine .bind (h.writes_referenceToken (Tag.registered_builtin _ _) fun hm i hi => ?_)
        fun _ htoken => .ok (.singleton htoken)
      exact Option.some.inj hi ▸ Nat.lt_trans (lt_size_of_keys h.strings hkey) hm.strings
  | array _ id =>
      obtain ⟨index, survivor, hok, hkey, -⟩ := h.array hholds.1 hholds.2
      simp only [WriteInput.underTag, hok, Except.mapError, ok_bind]
      refine .bind (h.writes_referenceToken (Tag.registered_builtin _ _) fun hm i hi => ?_)
        fun _ htoken => .ok (.singleton htoken)
      exact Option.some.inj hi ▸ Nat.lt_trans (lt_size_of_keys h.arrays hkey) hm.arrays
  | object _ hshape =>
      exact h.writes_objectSlot (hholds.hasNode rfl) hshape rfl
        fun hinline survivor hnode hown hrank => hfields hinline _ rfl _ survivor hnode hown hrank
  | shape _ hshape =>
      exact h.writes_objectSlot (hholds.hasNode rfl) hshape (by simp)
        fun hinline survivor hnode hown hrank => hfields hinline _ rfl _ survivor hnode hown hrank
  | absent hreference =>
      -- Of all tags only four are references.
      rcases tag with (_ | _) | shape
      case builtin.string | builtin.array =>
        exact .bind (h.writes_referenceToken (Tag.registered_builtin _ _) fun _ i hi => by simp at hi)
          fun _ htoken => .ok (.singleton htoken)
      case builtin.object => exact h.writes_nullObjectSlot (Tag.registered_builtin _ .object)
      case shape => exact @writes_nullObjectSlot input shapes rank m h (some shape) hregistered
      all_goals simp [Tag.isReference] at hreference

/-- A value that fits into a slot is written there, behind its tag if the slot does not fix it. -/
theorem writes_slot {codec : Codec} (hfits : FitsSlot input m codec value) {site : Site}
    {writeFields : ShapeId → NodeId → Except Error (List Token)}
    (hfields : input.config.inlineObjects = true → ∀ id, value.node? = some id → ∀ shape survivor,
      m.HasNode input.tree input.registry survivor →
      input.tree.shape? input.registry survivor = some shape → rank survivor = rank id →
      Writes input m (writeFields shape survivor) (AllProper shapes)) :
    Writes input m ((input.writer m).slot writeFields codec site value) (AllProper shapes) := by
  obtain ⟨tag, htag, haccepts⟩ := hfits.tag
  cases codec with
  | fixed fixedTag nullable =>
      exact h.writes_underTag hfits.stored hfits.registered_fixed hfits.holds hfields
  | tagged decl =>
      obtain ⟨listed, hlisted, hmem⟩ := h.tag_mem hfits.holds
      obtain rfl : listed = tag := Except.ok.inj (hlisted.symm.trans htag)
      have haccepts : decl.accepts listed = true := haccepts
      simp only [WriteInput.slot, htag, ok_bind, haccepts, Bool.not_true, Bool.false_eq_true, if_false]
      refine .bind (h.writes_tagToken hmem) fun _ htoken => .bind ?_
        fun _ htokens => .ok (.cons htoken htokens)
      exact h.writes_underTag (Tag.stored_of_holds htag
        (Tag.holds_self (Tag.isTerminal_of_of htag))) (h.filled.tags.registered_of_mem hmem)
        hfits.holds hfields

/-- The fields of an object are written if those of all objects with smaller numbers are, in
case objects are written in place. -/
theorem writes_fieldSlots (hr : input.registry.Valid) (hid : m.HasNode input.tree input.registry id)
    (hshape : input.tree.shape? input.registry id = some shape)
    {writeFields : ShapeId → NodeId → Except Error (List Token)}
    (hfields : input.config.inlineObjects = true → ∀ own survivor,
      m.HasNode input.tree input.registry survivor →
      input.tree.shape? input.registry survivor = some own → rank survivor < rank id →
      Writes input m (writeFields own survivor) (AllProper shapes)) :
    Writes input m ((input.writer m).fieldSlots writeFields shape id) (AllProper shapes) := by
  obtain ⟨object, hobject, hlookup⟩ := Tree.shape?_eq_some_iff.mp hshape
  have hslots := Tree.slots_of_object hobject hlookup
  simp only [WriteInput.fieldSlots, Tree.requireObject_eq_ok.mpr hobject, ok_bind]
  refine .bind (.mapM fun field hfield => ?_) fun _ hparts => .ok (.flatten hparts.2)
  refine h.writes_slot (h.fits_field hr hid hobject hlookup hfield)
    fun hinline child hchild own survivor hsurvivor hown hrank => ?_
  -- What a field holds has a smaller number, and so has everything of the same number.
  have hlt := (h.ranking hinline).child_lt id hid (object.get field.name)
    (hslots ▸ List.mem_map_of_mem hfield) child hchild
  exact hfields hinline own survivor hsurvivor hown (by omega)

/-- However deep objects in place are nested in one another, the numbers of their nodes bound the
depth. If nothing is written in place, any depth will do. -/
theorem writes_fieldsWithin (hr : input.registry.Valid) (depth : Nat)
    (hid : m.HasNode input.tree input.registry id)
    (hshape : input.tree.shape? input.registry id = some shape)
    (hdepth : input.config.inlineObjects = true → rank id ≤ depth) :
    Writes input m ((input.writer m).fieldsWithin (depth + 1) shape id) (AllProper shapes) := by
  induction depth generalizing id shape with
  | zero =>
      refine h.writes_fieldSlots hr hid hshape fun hinline own survivor hsurvivor hown hlt => ?_
      have hle := hdepth hinline
      omega
  | succ depth ih =>
      refine h.writes_fieldSlots hr hid hshape fun hinline own survivor hsurvivor hown hlt => ?_
      have hle := hdepth hinline
      exact ih hsurvivor hown fun _ => by omega

theorem writes_objectFields (hr : input.registry.Valid)
    (hid : m.HasNode input.tree input.registry id)
    (hshape : input.tree.shape? input.registry id = some shape) :
    Writes input m ((input.writer m).objectFields shape id) (AllProper shapes) :=
  h.writes_fieldsWithin hr _ hid hshape fun hinline =>
    Nat.le_of_lt ((h.ranking hinline).lt_size id hid)

/-! ### Sections of tokens

A section begins with a count, and it has at least as many tokens as entries. That many bytes are
what the decoder asks for before it makes room for the nodes. -/

omit h in
theorem writes_countToken {label : String} {count : Nat} :
    Writes input m (WriteInput.countToken label count) (·.Proper (tagsOf shapes).length) :=
  .bind .ofCount fun _ hbytes => .ok ⟨hbytes, fun _ hstream => by simp [WriteInput.plain] at hstream⟩

/-- What is known of the tokens of a section with a number of entries. -/
structure SectionTokens (shapes : List ShapeId) (entries : Nat) (tokens : List Token) : Prop where
  proper : AllProper shapes tokens
  entries_le : entries ≤ tokens.length

omit h in
theorem SectionTokens.append {entries entries' : Nat} {tokens tokens' : List Token}
    (h : SectionTokens shapes entries tokens) (h' : SectionTokens shapes entries' tokens') :
    SectionTokens shapes (entries + entries') (tokens ++ tokens') := by
  refine ⟨h.proper.append h'.proper, ?_⟩
  rw [List.length_append]
  exact Nat.add_le_add h.entries_le h'.entries_le

omit h in
/-- The sections of several tables, with as many entries as all of them together. -/
theorem SectionTokens.flatten {α : Type} {entries : α → Nat} {tables : List α}
    {sections : List (List Token)}
    (h : List.Forall₂ (fun table tokens => SectionTokens shapes (entries table) tokens) tables
      sections) : SectionTokens shapes (tables.map entries).sum sections.flatten := by
  induction h with
  | nil => exact ⟨.nil, Nat.le_refl 0⟩
  | cons hhead _ ih =>
      rw [List.map_cons, List.sum_cons, List.flatten_cons]
      exact hhead.append ih

omit h in
/-- A section is a count followed by its entries, none of which is without tokens. -/
theorem writes_entries {label : String} {count : Nat} {entry : NodeId → Except Error (List Token)}
    {ids : List NodeId} (hentry : ∀ id ∈ ids, Writes input m (entry id)
      fun tokens => tokens ≠ [] ∧ AllProper shapes tokens) :
    Writes input m (do
      let token ← WriteInput.countToken label count
      let entries ← ids.mapM entry
      .ok (token :: entries.flatten)) (SectionTokens shapes ids.length) := by
  refine .bind (writes_countToken : Writes input m _ (·.Proper (tagsOf shapes).length))
    fun token htoken => .bind (.mapM hentry) fun entries hentries => .ok ?_
  obtain ⟨hlength, hentries⟩ := hentries
  refine ⟨.cons htoken (.flatten fun part hpart => (hentries part hpart).2), ?_⟩
  have hle := AllProper.length_le_flatten fun part hpart => (hentries part hpart).1
  rw [List.length_cons]
  omega

theorem writes_objectSection (hr : input.registry.Valid) {table : ObjectTable}
    (htable : table ∈ m.objects.tables) :
    Writes input m ((input.writer m).objectSection table.table)
      (SectionTokens shapes table.table.keys.length) := by
  obtain ⟨shape, ht, -⟩ := h.filled.wellShaped.exists_table? htable
  obtain ⟨order, horder, -⟩ := (h.objects shape _ ht).order
  have hkeys : order.filterMap table.table.value? = table.table.keys := by
    rw [Table.keys, horder, Option.getD_some]
  simp only [WriteInput.objectSection, Table.indexed, horder, Except.mapError, ok_bind, hkeys]
  refine writes_entries fun id hid => ?_
  obtain ⟨own, hown, -, hobject⟩ := h.object_of_mem_keys ht hid
  have hnode := (hasNode_object_iff hown).mpr hobject
  simp only [Tree.shapeOf_eq_ok.mpr hown, ok_bind]
  exact .bind (h.writes_tagToken (mem_tagsOf_shape.mpr (h.filled.mem_shapes own id hown hobject)))
    fun _ hmarker => .bind (h.writes_objectFields hr hnode hown)
      fun _ hfields => .ok ⟨List.cons_ne_nil _ _, .cons hmarker hfields⟩

theorem writes_arrayEntry (hr : input.registry.Valid) (hid : m.HasNode input.tree input.registry id)
    (harray : (input.tree.array? id).isSome = true) :
    Writes input m ((input.writer m).arrayEntry id)
      fun tokens => tokens ≠ [] ∧ AllProper shapes tokens := by
  obtain ⟨elements, helements⟩ := Option.isSome_iff_exists.mp harray
  obtain ⟨tag, hget, hlisted, hfits⟩ := h.fits_elements hid helements
  have hlength : (WriteInput.plain (Varint.encodeUnsigned elements.length)).Proper
      (tagsOf shapes).length :=
    ⟨Varint.encodeUnsigned_ne_nil _, fun _ hstream => by simp [WriteInput.plain] at hstream⟩
  -- An array without elements has no tag of elements, so its length is all that is written.
  simp only [WriteInput.arrayEntry, Tree.requireArray_eq_ok.mpr helements, ok_bind]
  split
  · exact .ok ⟨List.cons_ne_nil _ _, .singleton hlength⟩
  · simp only [hget]
    refine .bind (h.writes_tagToken hlisted) fun _ hmarker => .bind (.mapM fun value hvalue => ?_)
      fun _ hparts => .ok ⟨List.cons_ne_nil _ _, .cons hlength (.cons hmarker (.flatten hparts.2))⟩
    exact h.writes_slot (hfits value hvalue) fun _ _ _ _ survivor hsurvivor hown _ =>
      h.writes_objectFields hr hsurvivor hown

theorem writes_arraySection (hr : input.registry.Valid) :
    Writes input m (input.writer m).arraySection (SectionTokens shapes m.arrays.keys.length) := by
  obtain ⟨order, horder, -⟩ := h.arrays.order
  have hkeys : order.filterMap m.arrays.value? = m.arrays.keys := by
    rw [Table.keys, horder, Option.getD_some]
  simp only [WriteInput.arraySection, Table.indexed, horder, Except.mapError, ok_bind, hkeys]
  refine writes_entries fun id hid => ?_
  obtain ⟨harray, hnode⟩ := h.array_of_mem_keys hid
  exact h.writes_arrayEntry hr hnode harray

theorem writes_rootSection (hr : input.registry.Valid) :
    Writes input m (input.writer m).rootSection (AllProper shapes) :=
  h.writes_slot h.fits_root fun _ _ _ _ _ hsurvivor hown _ => h.writes_objectFields hr hsurvivor hown

end Built

end Module

end SyntaxPack
