import SyntaxPack.Proofs.Decode.Steps
/-!
# SyntaxPack.Proofs.Decode.Slots

What the steps within a section can do: tokens, references, slots, entries.

`Took n s t` says that a step from `s` to `t` only took bytes, at least `n` of
them, from the current section or from a value stream. The three case lemmas
`objectSlot_cases`, `underTag_cases` and `slot_cases` say how a slot is made of
such steps, of a reference, and of the fields of an object in place.
-/

namespace SyntaxPack

namespace Module

/-- From `s` to `t` nothing happens but that at least `n` bytes are taken from the
section or from a value stream. -/
structure DecodeState.Took (n : Nat) (s t : DecodeState) : Prop where
  input : t.input = s.input
  nodes : t.nodes = s.nodes
  shapeRefs : t.shapeRefs = s.shapeRefs
  ascending : t.source.Ascending
  unread : t.source.unread + n ≤ s.source.unread

namespace DecodeState.Took

variable {m n : Nat} {s t u : DecodeState}

theorem refl (h : s.source.Ascending) : Took 0 s s := ⟨rfl, rfl, rfl, h, Nat.le_refl _⟩

theorem trans (h₁ : Took m s t) (h₂ : Took n t u) : Took (m + n) s u where
  input := h₂.input.trans h₁.input
  nodes := h₂.nodes.trans h₁.nodes
  shapeRefs := h₂.shapeRefs.trans h₁.shapeRefs
  ascending := h₂.ascending
  unread := by
    have := h₁.unread
    have := h₂.unread
    omega

theorem mono (h : Took n s t) (hm : m ≤ n) : Took m s t :=
  ⟨h.input, h.nodes, h.shapeRefs, h.ascending, by have := h.unread; omega⟩

end DecodeState.Took

open DecodeState (Took)

namespace Decode

variable {α : Type} {s t : DecodeState}

theorem took_fromStream {n stream : Nat} {read : Read α} {a : α} (hs : s.source.Ascending)
    (hread : read.Consumes n) (h : fromStream stream read s = .ok a t) : Took n s t := by
  obtain ⟨reader, rest, hroute, hrun, rfl⟩ := fromStream_eq_ok.mp h
  refine ⟨rfl, rfl, rfl, hs.advance stream rest, ?_⟩
  have := StreamReader.unread_advance hs hroute rest
  have := hread.remaining_add_le hrun
  simp only
  omega

theorem took_fromSection {n : Nat} {read : Read α} {a : α} (hs : s.source.Ascending)
    (hread : read.Consumes n) (h : fromSection read s = .ok a t) : Took n s t := by
  obtain ⟨rest, hrun, rfl⟩ := fromSection_eq_ok.mp h
  refine ⟨rfl, rfl, rfl, hs, ?_⟩
  have := hread.remaining_add_le hrun
  simp only [StreamReader.unread_eq]
  omega

theorem took_count {label : String} {expected : Nat} {u : Unit} (hs : s.source.Ascending)
    (h : Decode.count label expected s = .ok u t) : Took 4 s t := by
  obtain ⟨rest, hrun, rfl⟩ := count_eq_ok.mp h
  exact took_fromSection hs Read.consumes_nat32 (fromSection_eq_ok.mpr ⟨rest, hrun, rfl⟩)

end Decode

namespace DecodeInput

variable {input : DecodeInput} {s t : DecodeState}

/-! ### Tokens -/

theorem consumes_located {α : Type} {read : Read α} {n : Nat} (h : read.Consumes n) :
    (located read).Consumes n :=
  Read.consumes_offset.bind_right fun _ => h.bind_left fun _ => Read.consumes_pure _

theorem took_fromTag {α : Type} {n : Nat} {tag : Tag} {read : Read α} {a : α}
    (hs : s.source.Ascending) (hread : read.Consumes n) (h : input.fromTag tag read s = .ok a t) :
    Took n s t :=
  Decode.took_fromStream hs hread h

/-- A tag token takes a byte and names an entry of the tag table. -/
theorem readTag_eq_ok {tag : Tag} (hs : s.source.Ascending) (h : input.readTag s = .ok tag t) :
    Took 1 s t ∧ tag ∈ input.tags := by
  obtain ⟨⟨offset, index⟩, u, hread, h⟩ := run_bind_eq_ok.mp h
  obtain ⟨hfound, rfl⟩ := Decode.require_eq_ok.mp h
  exact ⟨took_fromTag hs (consumes_located input.wire.indexEncoding.consumes_readIndex) hread,
    Array.mem_of_getElem? hfound⟩

theorem nullOr_eq_ok {nullable : Bool} {offset : Nat} {expected : String} {value : Value} :
    nullOr nullable offset expected s = .ok value t ↔ nullable = true ∧ value = .null ∧ t = s := by
  cases nullable with
  | true => simp [nullOr, eq_comm]
  | false => simp [nullOr]

/-! ### References to objects -/

/-- A reference leads to an entry of its table and may have to be checked later. -/
theorem objectRef_eq_ok {expected : Option ShapeId} {index offset : Nat} {value : Value} :
    input.objectRef expected index offset s = .ok value t ↔
      index < (input.slotsFor expected).count ∧
      value = .object ⟨(input.slotsFor expected).first + index⟩ ∧
      t = { s with
        shapeRefs := input.pendingRefs expected ⟨(input.slotsFor expected).first + index⟩ index ++
          s.shapeRefs } := by
  simp only [objectRef, run_bind_eq_ok, Decode.ensure_eq_ok, run_modify, run_pure_eq_ok,
    EStateM.Result.ok.injEq]
  constructor
  · rintro ⟨_, _, ⟨hlt, rfl⟩, _, _, ⟨-, rfl⟩, rfl, rfl⟩
    exact ⟨hlt, rfl, rfl⟩
  · rintro ⟨hlt, rfl, rfl⟩
    exact ⟨(), s, ⟨hlt, rfl⟩, ⟨⟩, _, ⟨trivial, rfl⟩, rfl, rfl⟩

/-! ### Slots -/

theorem pushNode_eq_ok {node : Node} {id : NodeId} :
    pushNode node s = .ok id t ↔
      id = ⟨s.nodes.size⟩ ∧ t = { s with nodes := s.nodes.push node } := by
  simp only [pushNode, run_bind_eq_ok, run_get, run_modify, run_pure_eq_ok,
    EStateM.Result.ok.injEq]
  constructor
  · rintro ⟨_, _, ⟨rfl, rfl⟩, _, _, ⟨-, rfl⟩, rfl, rfl⟩
    exact ⟨rfl, rfl⟩
  · rintro ⟨rfl, rfl⟩
    exact ⟨_, _, ⟨rfl, rfl⟩, ⟨⟩, _, ⟨trivial, rfl⟩, rfl, rfl⟩

/-- An object in place: after the marker at `u`, its fields are read up to `v`, and
it becomes the last node. -/
structure InPlace (input : DecodeInput) (readFields : ShapeId → Decode Object)
    (expected : Option ShapeId) (s t : DecodeState) (value : Value) (shape : ShapeId)
    (object : Object) (u v : DecodeState) : Prop where
  inlined : input.wire.inlineObjects = true
  shape_mem : .shape shape ∈ input.tags
  expected_eq : expected = none ∨ expected = some shape
  marker : Took 1 s u
  fields : readFields shape u = .ok object v
  value_eq : value = .object ⟨v.nodes.size⟩
  state_eq : t = { v with nodes := v.nodes.push (.object object) }

/-- An object slot holds null, a reference, or an object in place. -/
theorem objectSlot_cases {readFields : ShapeId → Decode Object} {expected : Option ShapeId}
    {nullable : Bool} {value : Value} (hs : s.source.Ascending)
    (h : input.objectSlot readFields expected nullable s = .ok value t) :
    (nullable = true ∧ value = .null ∧ Took 1 s t) ∨
    (∃ index offset u, Took 1 s u ∧ input.objectRef expected index offset u = .ok value t) ∨
    (∃ shape object u v, InPlace input readFields expected s t value shape object u v) := by
  cases hinline : input.wire.inlineObjects with
  | false =>
      simp only [objectSlot, hinline, Bool.false_eq_true, if_false] at h
      obtain ⟨⟨offset, index⟩, u, hread, h₁⟩ := run_bind_eq_ok.mp h
      have htook := took_fromTag hs
        (consumes_located input.wire.indexEncoding.consumes_readReference) hread
      cases index with
      | some index => exact Or.inr (Or.inl ⟨index, offset, u, htook, h₁⟩)
      | none =>
          obtain ⟨hnull, rfl, rfl⟩ := nullOr_eq_ok.mp h₁
          exact Or.inl ⟨hnull, rfl, htook⟩
  | true =>
      simp only [objectSlot, hinline, if_true] at h
      obtain ⟨offset, w, hoffset, h₁⟩ := run_bind_eq_ok.mp h
      obtain ⟨-, rfl⟩ := Decode.offset_eq_ok.mp hoffset
      obtain ⟨marker, u, hmarker, h₂⟩ := run_bind_eq_ok.mp h₁
      obtain ⟨htook, hmem⟩ := readTag_eq_ok hs hmarker
      rcases marker with (_ | _) | shape
      case shape =>
        obtain ⟨_, _, hensure, h₃⟩ := run_bind_eq_ok.mp h₂
        obtain ⟨hexpected, rfl⟩ := Decode.ensure_eq_ok.mp hensure
        obtain ⟨object, v, hfields, h₄⟩ := run_bind_eq_ok.mp h₃
        obtain ⟨id, w, hpush, h₅⟩ := run_bind_eq_ok.mp h₄
        obtain ⟨rfl, rfl⟩ := pushNode_eq_ok.mp hpush
        obtain ⟨rfl, rfl⟩ := run_pure_eq_ok.mp h₅
        refine Or.inr (Or.inr ⟨shape, object, _, v, hinline, hmem, ?_, htook, hfields, rfl, rfl⟩)
        cases expected with
        | none => exact Or.inl rfl
        | some e => simpa using hexpected
      case builtin.null =>
        obtain ⟨hnull, rfl, rfl⟩ := nullOr_eq_ok.mp h₂
        exact Or.inl ⟨hnull, rfl, htook⟩
      case builtin.object =>
        obtain ⟨⟨offset, index⟩, v, hread, h₃⟩ := run_bind_eq_ok.mp h₂
        have htook' := took_fromTag htook.ascending
          (consumes_located input.wire.indexEncoding.consumes_readIndex) hread
        exact Or.inr (Or.inl ⟨index, offset, v, (htook.trans htook').mono (by omega), h₃⟩)
      all_goals simp at h₂

/-- The values, objects aside, that a slot can hold under a tag. -/
inductive Plain (input : DecodeInput) : Tag → Bool → Value → Prop
  | null (nullable : Bool) : Plain input (.builtin .null) nullable .null
  | trueValue (nullable : Bool) : Plain input (.builtin .trueValue) nullable (.boolean true)
  | falseValue (nullable : Bool) : Plain input (.builtin .falseValue) nullable (.boolean false)
  | integer (nullable : Bool) (i : Int) (h : Double.isPayload i = true) :
      Plain input (.builtin .integer) nullable (.number (.ofInt i))
  | double (nullable : Bool) (d : Double) : Plain input (.builtin .double) nullable (.number d)
  | string (nullable : Bool) (s : String) : Plain input (.builtin .string) nullable (.string s)
  | absentString : Plain input (.builtin .string) true .null
  | array (nullable : Bool) (index : Nat) (h : index < input.arrayCount) :
      Plain input (.builtin .array) nullable (.array ⟨input.firstArray + index⟩)
  | absentArray : Plain input (.builtin .array) true .null

/-- Under a known tag stands a plain value, or an object slot. -/
theorem underTag_cases {readFields : ShapeId → Decode Object} {tag : Tag} {nullable : Bool}
    {value : Value} (hs : s.source.Ascending)
    (h : input.underTag readFields tag nullable s = .ok value t) :
    (Plain input tag nullable value ∧ Took 0 s t) ∨
    ∃ expected, tag = slotTag expected ∧
      input.objectSlot readFields expected nullable s = .ok value t := by
  match tag, h with
  | .builtin .null, h =>
      obtain ⟨rfl, rfl⟩ := run_pure_eq_ok.mp h
      exact Or.inl ⟨.null nullable, .refl hs⟩
  | .builtin .trueValue, h =>
      obtain ⟨rfl, rfl⟩ := run_pure_eq_ok.mp h
      exact Or.inl ⟨.trueValue nullable, .refl hs⟩
  | .builtin .falseValue, h =>
      obtain ⟨rfl, rfl⟩ := run_pure_eq_ok.mp h
      exact Or.inl ⟨.falseValue nullable, .refl hs⟩
  | .builtin .integer, h =>
      obtain ⟨i, u, hread, h₁⟩ := run_bind_eq_ok.mp h
      obtain ⟨rfl, rfl⟩ := run_pure_eq_ok.mp h₁
      obtain ⟨reader, rest, -, hrun, -⟩ := Decode.fromStream_eq_ok.mp hread
      exact Or.inl ⟨.integer nullable i (IndexEncoding.isPayload_of_readInteger hrun),
        (took_fromTag hs input.wire.indexEncoding.consumes_readInteger hread).mono (Nat.zero_le _)⟩
  | .builtin .double, h =>
      obtain ⟨d, u, hread, h₁⟩ := run_bind_eq_ok.mp h
      obtain ⟨rfl, rfl⟩ := run_pure_eq_ok.mp h₁
      exact Or.inl ⟨.double nullable d,
        (took_fromTag hs Read.consumes_double hread).mono (Nat.zero_le _)⟩
  | .builtin .string, h =>
      obtain ⟨⟨offset, index⟩, u, hread, h₁⟩ := run_bind_eq_ok.mp h
      have htook := (took_fromTag hs
        (consumes_located input.wire.indexEncoding.consumes_readReference) hread).mono
        (Nat.zero_le _)
      cases index with
      | none =>
          obtain ⟨rfl, rfl, rfl⟩ := nullOr_eq_ok.mp h₁
          exact Or.inl ⟨.absentString, htook⟩
      | some index =>
          obtain ⟨text, v, hrequire, h₂⟩ := run_bind_eq_ok.mp h₁
          obtain ⟨-, rfl⟩ := Decode.require_eq_ok.mp hrequire
          obtain ⟨rfl, rfl⟩ := run_pure_eq_ok.mp h₂
          exact Or.inl ⟨.string nullable text, htook⟩
  | .builtin .array, h =>
      obtain ⟨⟨offset, index⟩, u, hread, h₁⟩ := run_bind_eq_ok.mp h
      have htook := (took_fromTag hs
        (consumes_located input.wire.indexEncoding.consumes_readReference) hread).mono
        (Nat.zero_le _)
      cases index with
      | none =>
          obtain ⟨rfl, rfl, rfl⟩ := nullOr_eq_ok.mp h₁
          exact Or.inl ⟨.absentArray, htook⟩
      | some index =>
          obtain ⟨_, v, hensure, h₂⟩ := run_bind_eq_ok.mp h₁
          obtain ⟨hlt, rfl⟩ := Decode.ensure_eq_ok.mp hensure
          obtain ⟨rfl, rfl⟩ := run_pure_eq_ok.mp h₂
          exact Or.inl ⟨.array nullable index hlt, htook⟩
  | .builtin .object, h => exact Or.inr ⟨none, rfl, h⟩
  | .shape shape, h => exact Or.inr ⟨some shape, rfl, h⟩
  | .builtin .any, h | .builtin .boolean, h | .builtin .number, h =>
      obtain ⟨offset, u, -, h₁⟩ := run_bind_eq_ok.mp h
      simp at h₁

/-- A slot holds a value under a tag: under one that stands in front of it and that
the declaration accepts, or under a fixed one. -/
theorem slot_cases {readFields : ShapeId → Decode Object} {codec : Codec} {value : Value}
    (hs : s.source.Ascending) (h : input.slot readFields codec s = .ok value t) :
    (∃ decl tag u, codec = .tagged decl ∧ tag ∈ input.tags ∧ tag.isTerminal = true ∧
      decl.accepts tag = true ∧ Took 1 s u ∧
      input.underTag readFields tag false u = .ok value t) ∨
    (∃ tag nullable, codec = .fixed tag nullable ∧
      input.underTag readFields tag nullable s = .ok value t) := by
  cases codec with
  | fixed tag nullable => exact Or.inr ⟨tag, nullable, rfl, h⟩
  | tagged decl =>
      obtain ⟨offset, w, hoffset, h₁⟩ := run_bind_eq_ok.mp h
      obtain ⟨-, rfl⟩ := Decode.offset_eq_ok.mp hoffset
      obtain ⟨tag, u, htag, h₂⟩ := run_bind_eq_ok.mp h₁
      obtain ⟨htook, hmem⟩ := readTag_eq_ok hs htag
      obtain ⟨_, _, hany, h₃⟩ := run_bind_eq_ok.mp h₂
      obtain ⟨-, rfl⟩ := Decode.ensure_eq_ok.mp hany
      obtain ⟨_, _, hensure, h₄⟩ := run_bind_eq_ok.mp h₃
      obtain ⟨haccepts, rfl⟩ := Decode.ensure_eq_ok.mp hensure
      rw [Bool.and_eq_true] at haccepts
      exact Or.inl ⟨decl, tag, _, rfl, hmem, haccepts.1, haccepts.2, htook, h₄⟩

end DecodeInput

end Module

end SyntaxPack
