import SyntaxPack.Proofs.Decode.Slots
/-!
# SyntaxPack.Proofs.Decode.Progress

Reading fields comes to an end.

The fields of an object are read by a recursion through slots, object slots and
objects in place. What decreases is not one argument but the number of unread
bytes over the section and all value streams: every object in place starts with
a marker of at least one byte. So `slot` depends on `readFields` only where fewer
bytes are unread (`slot_congr`), the bound on nesting in `fieldsWithin` is never
met (`fieldsWithin_eq`), and `objectFields` satisfies the recursion equation of
the unbounded algorithm (`objectFields_eq`).
-/

namespace SyntaxPack

namespace Module

/-- The number of unread bytes, of the current section and of all that follows. -/
def DecodeState.left (s : DecodeState) : Nat := s.input.remaining + s.source.unread

/-- The nodes there are and the bytes that are left. Since a node costs a byte, this
never grows. -/
def DecodeState.load (s : DecodeState) : Nat := s.nodes.size + s.left

/-- From `s` to `t` some slots are read: bytes are taken, nodes are added for
objects in place, and references to be checked are recorded. -/
structure DecodeState.Advance (s t : DecodeState) : Prop where
  input : t.input = s.input
  ascending : t.source.Ascending
  nodes : s.nodes.toList <+: t.nodes.toList
  load : t.load ≤ s.load
  shapeRefs : s.shapeRefs <:+ t.shapeRefs

namespace DecodeState.Advance

variable {n : Nat} {s t u : DecodeState}

theorem refl (h : s.source.Ascending) : Advance s s :=
  ⟨rfl, h, List.prefix_refl _, Nat.le_refl _, List.suffix_refl _⟩

theorem trans (h₁ : Advance s t) (h₂ : Advance t u) : Advance s u where
  input := h₂.input.trans h₁.input
  ascending := h₂.ascending
  nodes := h₁.nodes.trans h₂.nodes
  load := Nat.le_trans h₂.load h₁.load
  shapeRefs := h₁.shapeRefs.trans h₂.shapeRefs

theorem size_le (h : Advance s t) : s.nodes.size ≤ t.nodes.size := by
  simpa using h.nodes.length_le

/-- Nodes stay as they are. -/
theorem getElem?_eq (h : Advance s t) {i : Nat} (hi : i < s.nodes.size) :
    t.nodes[i]? = s.nodes[i]? := by
  obtain ⟨added, hadded⟩ := h.nodes
  rw [← Array.getElem?_toList, ← Array.getElem?_toList, ← hadded,
    List.getElem?_append_left (by simpa using hi)]

/-- Every node that is added is paid for with a byte. -/
theorem unread_le (h : Advance s t) :
    t.source.unread + t.nodes.size ≤ s.source.unread + s.nodes.size := by
  have hload := h.load
  simp only [DecodeState.load, DecodeState.left, h.input] at hload
  omega

end DecodeState.Advance

theorem DecodeState.Took.advance {n : Nat} {s t : DecodeState} (h : Took n s t) : s.Advance t where
  input := h.input
  ascending := h.ascending
  nodes := h.nodes ▸ List.prefix_refl _
  load := by
    have := h.unread
    simp only [DecodeState.load, DecodeState.left, h.input, h.nodes]
    omega
  shapeRefs := h.shapeRefs ▸ List.suffix_refl _

open DecodeState (Took Advance)

/-- Reading the fields of an object makes progress. -/
def Advances (readFields : ShapeId → Decode Object) : Prop :=
  ∀ (shape : ShapeId) (s : DecodeState) (object : Object) (t : DecodeState),
    s.source.Ascending → readFields shape s = .ok object t → s.Advance t

namespace DecodeInput

variable {input : DecodeInput} {s t : DecodeState}

/-! ### Every slot makes progress -/

theorem objectRef_advance {expected : Option ShapeId} {index offset : Nat} {value : Value}
    (hs : s.source.Ascending) (h : input.objectRef expected index offset s = .ok value t) :
    s.Advance t := by
  obtain ⟨-, -, rfl⟩ := objectRef_eq_ok.mp h
  exact ⟨rfl, hs, List.prefix_refl _, Nat.le_refl _, List.suffix_append _ _⟩

/-- The marker of an object in place pays for its node. -/
theorem InPlace.advance {readFields : ShapeId → Decode Object} {expected : Option ShapeId}
    {value : Value} {shape : ShapeId} {object : Object} {u v : DecodeState}
    (h : InPlace input readFields expected s t value shape object u v)
    (hfields : Advances readFields) : s.Advance t := by
  have hu := h.marker.advance
  have hv := hfields shape u object v h.marker.ascending h.fields
  have hvt : v.nodes.toList <+: t.nodes.toList := by
    simp [h.state_eq]
  refine ⟨?_, ?_, hu.nodes.trans (hv.nodes.trans hvt), ?_, ?_⟩
  · rw [h.state_eq, hv.input, hu.input]
  · rw [h.state_eq]
    exact hv.ascending
  · have hmarker := h.marker.unread
    have hload := hv.load
    simp only [DecodeState.load, DecodeState.left, h.marker.input, h.marker.nodes] at hload
    simp only [h.state_eq, DecodeState.load, DecodeState.left, Array.size_push]
    omega
  · rw [h.state_eq]
    exact hu.shapeRefs.trans hv.shapeRefs

theorem objectSlot_advance {readFields : ShapeId → Decode Object} {expected : Option ShapeId}
    {nullable : Bool} {value : Value} (hs : s.source.Ascending) (hfields : Advances readFields)
    (h : input.objectSlot readFields expected nullable s = .ok value t) : s.Advance t := by
  rcases objectSlot_cases hs h with ⟨-, -, htook⟩ | ⟨index, offset, u, htook, href⟩ |
    ⟨shape, object, u, v, hplace⟩
  · exact htook.advance
  · exact htook.advance.trans (objectRef_advance htook.ascending href)
  · exact hplace.advance hfields

theorem underTag_advance {readFields : ShapeId → Decode Object} {tag : Tag} {nullable : Bool}
    {value : Value} (hs : s.source.Ascending) (hfields : Advances readFields)
    (h : input.underTag readFields tag nullable s = .ok value t) : s.Advance t := by
  rcases underTag_cases hs h with ⟨-, htook⟩ | ⟨expected, -, hslot⟩
  · exact htook.advance
  · exact objectSlot_advance hs hfields hslot

theorem slot_advance {readFields : ShapeId → Decode Object} {codec : Codec} {value : Value}
    (hs : s.source.Ascending) (hfields : Advances readFields)
    (h : input.slot readFields codec s = .ok value t) : s.Advance t := by
  rcases slot_cases hs h with ⟨decl, tag, u, -, -, -, -, htook, hunder⟩ | ⟨tag, nullable, -, hunder⟩
  · exact htook.advance.trans (underTag_advance htook.ascending hfields hunder)
  · exact underTag_advance hs hfields hunder

/-- What reading the declared fields of an object is made of. -/
theorem fieldSlots_eq_ok {readFields : ShapeId → Decode Object} {shape : ShapeId}
    {object : Object} : input.fieldSlots readFields shape s = .ok object t ↔
      ∃ values, (input.registry.fields shape).mapM (fun field =>
          input.slot readFields (Codec.ofDecl field.type input.wire.partitionedTables)) s =
        .ok values t ∧
      object = Object.ofFields (input.registry.shapeName shape)
        (((input.registry.fields shape).map (·.name)).zip values) := by
  simp only [fieldSlots, run_bind_eq_ok, run_pure_eq_ok]
  constructor
  · rintro ⟨values, u, hvalues, rfl, rfl⟩
    exact ⟨values, hvalues, rfl⟩
  · rintro ⟨values, hvalues, rfl⟩
    exact ⟨values, t, hvalues, rfl, rfl⟩

theorem fieldSlots_advances {readFields : ShapeId → Decode Object} (hfields : Advances readFields) :
    Advances (input.fieldSlots readFields) := by
  intro shape s object t hs h
  obtain ⟨values, hvalues, -⟩ := fieldSlots_eq_ok.mp h
  exact run_mapM_induction (motive := fun _ _ u => s.Advance u) hvalues (.refl hs)
    fun _ _ _ _ u v _ hu hslot => hu.trans (slot_advance hu.ascending hfields hslot)

theorem fieldsWithin_advances (depth : Nat) : Advances (input.fieldsWithin depth) := by
  induction depth with
  | zero =>
      intro shape s object t hs h
      obtain ⟨u, v, -, h₁⟩ := run_bind_eq_ok.mp h
      simp at h₁
  | succ depth ih => exact fieldSlots_advances ih

theorem objectFields_advances : Advances input.objectFields :=
  fieldsWithin_advances _

/-! ### Fields of objects in place start with fewer bytes -/

/-- Two ways of reading the fields of objects agree wherever an object in place can
stand after `s`: its shape has a tag, and its marker has been taken. -/
def AgreeAfter (input : DecodeInput) (f g : ShapeId → Decode Object) (s : DecodeState) : Prop :=
  ∀ (shape : ShapeId) (u : DecodeState), .shape shape ∈ input.tags → s.Advance u →
    u.source.unread < s.source.unread → f shape u = g shape u

theorem AgreeAfter.advance {f g : ShapeId → Decode Object} (h : AgreeAfter input f g s)
    (ht : s.Advance t) : AgreeAfter input f g t := by
  intro shape u hmem hu hlt
  have := ht.unread_le
  have := ht.size_le
  exact h shape u hmem (ht.trans hu) (by omega)

theorem objectSlot_congr {f g : ShapeId → Decode Object} {expected : Option ShapeId}
    {nullable : Bool} (hs : s.source.Ascending) (h : AgreeAfter input f g s) :
    input.objectSlot f expected nullable s = input.objectSlot g expected nullable s := by
  cases hinline : input.wire.inlineObjects with
  | false => simp only [objectSlot, hinline, Bool.false_eq_true, if_false]
  | true =>
      simp only [objectSlot, hinline, if_true]
      refine run_bind_congr fun offset w hoffset => ?_
      obtain ⟨-, rfl⟩ := Decode.offset_eq_ok.mp hoffset
      refine run_bind_congr fun marker u hmarker => ?_
      obtain ⟨htook, hmem⟩ := readTag_eq_ok hs hmarker
      rcases marker with (_ | _) | shape
      case shape =>
        refine run_bind_congr fun _ v hensure => ?_
        obtain ⟨-, rfl⟩ := Decode.ensure_eq_ok.mp hensure
        have hunread := htook.unread
        have hfg := h shape _ hmem htook.advance (by omega)
        simp only [bind, EStateM.bind, hfg]
      all_goals rfl

theorem underTag_congr {f g : ShapeId → Decode Object} {tag : Tag} {nullable : Bool}
    (hs : s.source.Ascending) (h : AgreeAfter input f g s) :
    input.underTag f tag nullable s = input.underTag g tag nullable s := by
  rcases tag with (_ | _) | shape
  case builtin.object => exact objectSlot_congr hs h
  case shape => exact objectSlot_congr hs h
  all_goals rfl

/-- A slot depends on how fields are read only at objects in place, where at least
one byte less is unread than at the start of the slot. -/
theorem slot_congr {f g : ShapeId → Decode Object} {codec : Codec} (hs : s.source.Ascending)
    (h : AgreeAfter input f g s) : input.slot f codec s = input.slot g codec s := by
  cases codec with
  | fixed tag nullable => exact underTag_congr hs h
  | tagged decl =>
      refine run_bind_congr fun offset w hoffset => ?_
      obtain ⟨-, rfl⟩ := Decode.offset_eq_ok.mp hoffset
      refine run_bind_congr fun tag u htag => ?_
      obtain ⟨htook, -⟩ := readTag_eq_ok hs htag
      refine run_bind_congr fun _ v hany => ?_
      obtain ⟨-, rfl⟩ := Decode.ensure_eq_ok.mp hany
      refine run_bind_congr fun _ v hensure => ?_
      obtain ⟨-, rfl⟩ := Decode.ensure_eq_ok.mp hensure
      exact underTag_congr htook.ascending (h.advance htook.advance)

theorem fieldSlots_congr {f g : ShapeId → Decode Object} {shape : ShapeId}
    (hs : s.source.Ascending) (hf : Advances f) (h : AgreeAfter input f g s) :
    input.fieldSlots f shape s = input.fieldSlots g shape s := by
  have hslots : (input.registry.fields shape).mapM (fun field =>
        input.slot f (Codec.ofDecl field.type input.wire.partitionedTables)) s =
      (input.registry.fields shape).mapM (fun field =>
        input.slot g (Codec.ofDecl field.type input.wire.partitionedTables)) s :=
    run_mapM_congr (motive := fun u => s.Advance u) (.refl hs)
      (fun field u _ hu => slot_congr hu.ascending (h.advance hu))
      fun field u value v _ hu hslot => hu.trans (slot_advance hu.ascending hf hslot)
  simp only [fieldSlots, bind, EStateM.bind, hslots]

/-! ### The bound on nesting is never met -/

/-- With a bound above the number of unread bytes, the bound makes no difference. -/
theorem fieldsWithin_eq {m n : Nat} {shape : ShapeId} (hs : s.source.Ascending)
    (hm : s.source.unread < m) (hn : s.source.unread < n) :
    input.fieldsWithin m shape s = input.fieldsWithin n shape s := by
  induction m generalizing n shape s with
  | zero => omega
  | succ m ih =>
      cases n with
      | zero => omega
      | succ n =>
          refine fieldSlots_congr hs (fieldsWithin_advances m) ?_
          intro shape' u _ hu hlt
          exact ih hu.ascending (by omega) (by omega)

/-- The fields of an object are read by the recursion without a bound. -/
theorem objectFields_eq {shape : ShapeId} (hs : s.source.Ascending)
    (hsize : s.source.unread ≤ input.size) :
    input.objectFields shape s = input.fieldSlots input.objectFields shape s := by
  refine fieldSlots_congr hs (fieldsWithin_advances _) ?_
  intro shape' u _ hu hlt
  exact fieldsWithin_eq hu.ascending (by omega) (by omega)

end DecodeInput

end Module

end SyntaxPack
