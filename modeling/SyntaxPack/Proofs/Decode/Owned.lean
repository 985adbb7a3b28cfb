import SyntaxPack.Proofs.Decode.Soundness
/-!
# SyntaxPack.Proofs.Decode.Owned

An object in place belongs to a single slot.

A reference to a table entry can be repeated, but an object that stands in place becomes
a node of its own. So the nodes past the tables are referred to at most once, and a node
that is not there yet is not referred to at all. `Owned` says so of the nodes that
have been read, together with the values that are still held by the decoder; no step of
it uses a value twice.
-/

namespace SyntaxPack

variable {id : NodeId} {held held' values : List Value} {nodes : Array Node} {node : Node}

/-- How often values and the nodes of an arena refer to a node. -/
def uses (id : NodeId) (held : List Value) (nodes : Array Node) : Nat :=
  (held.filterMap Value.node?).count id + (nodes.toList.map (·.references.count id)).sum

theorem uses_congr (h : held.Perm held') : uses id held nodes = uses id held' nodes := by
  rw [uses, (h.filterMap Value.node?).count_eq, uses]

/-- Values that go into a node that is added are still referred to by it. -/
theorem uses_push : uses id held (nodes.push node) = uses id (node.children ++ held) nodes := by
  simp only [uses, Array.toList_push, List.map_append, List.map_singleton, List.sum_append,
    List.sum_singleton, List.filterMap_append, List.count_append, Node.references]
  omega

theorem sum_set_le {α : Type} (f : α → Nat) (l : List α) (i : Nat) (a : α) :
    ((l.set i a).map f).sum ≤ f a + (l.map f).sum := by
  induction l generalizing i with
  | nil => simp
  | cons b l ih =>
      cases i with
      | zero =>
          simp only [List.set_cons_zero, List.map_cons, List.sum_cons]
          omega
      | succ i =>
          have := ih i
          simp only [List.set_cons_succ, List.map_cons, List.sum_cons]
          omega

/-- A node that is put into its place brings no more than what it refers to. -/
theorem uses_setIfInBounds_le (i : Nat) :
    uses id held (nodes.setIfInBounds i node) ≤ uses id (node.children ++ held) nodes := by
  have hsum := sum_set_le (fun node : Node => node.references.count id) nodes.toList i node
  simp only [uses, Array.toList_setIfInBounds, List.filterMap_append, List.count_append]
  simp only [Node.references] at hsum ⊢
  omega

namespace Module

open DecodeState (Took)

namespace DecodeInput

variable {input : DecodeInput} {s t : DecodeState} {value : Value}

/-- Values that have been read, and the nodes, refer to a node past the tables at most
once, and not before it is there. -/
def Owned (input : DecodeInput) (held : List Value) (s : DecodeState) : Prop :=
  ∀ id : NodeId, input.tableEnd ≤ id.index →
    uses id held s.nodes ≤ if id.index < s.nodes.size then 1 else 0

namespace Owned

theorem congr (h : input.Owned held s) (hperm : held.Perm held') (hnodes : t.nodes = s.nodes) :
    input.Owned held' t := by
  intro id hid
  rw [hnodes, ← uses_congr hperm]
  exact h id hid

theorem took {n : Nat} (h : input.Owned held s) (ht : Took n s t) : input.Owned held t :=
  h.congr (.refl _) ht.nodes

/-- A value that refers to no node past the tables makes no difference. -/
theorem cons (h : input.Owned held s)
    (hvalue : ∀ id, value.node? = some id → id.index < input.tableEnd) :
    input.Owned (value :: held) s := by
  intro id hid
  have huses : uses id (value :: held) s.nodes = uses id held s.nodes := by
    cases hnode : value.node? with
    | none => simp only [uses, List.filterMap_cons_none hnode]
    | some other =>
        have hne : other ≠ id := by
          rintro rfl
          exact absurd hid (Nat.not_le.mpr (hvalue other hnode))
        simp only [uses, List.filterMap_cons_some hnode, List.count_cons_of_ne hne]
  rw [huses]
  exact h id hid

/-- The values that a new node takes are held by it, and the node itself is held once. -/
theorem push {object : Object} (h : input.Owned ((Node.object object).children ++ held) s)
    (hnodes : t.nodes = s.nodes.push (.object object)) :
    input.Owned (.object ⟨s.nodes.size⟩ :: held) t := by
  intro id hid
  have hbefore := h id hid
  rw [← uses_push, ← hnodes] at hbefore
  have hsize : t.nodes.size = s.nodes.size + 1 := by rw [hnodes, Array.size_push]
  have huses : uses id (.object ⟨s.nodes.size⟩ :: held) t.nodes =
      uses id held t.nodes + if id.index = s.nodes.size then 1 else 0 := by
    have hnode : (Value.object ⟨s.nodes.size⟩).node? = some ⟨s.nodes.size⟩ := rfl
    simp only [uses, List.filterMap_cons_some hnode]
    by_cases heq : id.index = s.nodes.size
    · obtain rfl : id = ⟨s.nodes.size⟩ := congrArg NodeId.mk heq
      simp
      omega
    · have hne : (⟨s.nodes.size⟩ : NodeId) ≠ id := fun h => heq (h ▸ rfl)
      rw [List.count_cons_of_ne hne, if_neg heq, Nat.add_zero]
  rw [huses, hsize]
  split at hbefore <;> split <;> split <;> omega

/-- The values of an entry go into its node. -/
theorem setNode {i : Nat} {node : Node} (h : input.Owned (node.children ++ held) s)
    (hnodes : t.nodes = s.nodes.setIfInBounds i node) : input.Owned held t := by
  intro id hid
  have hsize : t.nodes.size = s.nodes.size := by rw [hnodes, Array.size_setIfInBounds]
  rw [hsize]
  refine Nat.le_trans ?_ (h id hid)
  rw [hnodes]
  exact uses_setIfInBounds_le i

end Owned

/-! ### Slots -/

/-- Reading the fields of an object uses no value twice. -/
def FieldsOwned (input : DecodeInput) (readFields : ShapeId → Decode Object) : Prop :=
  ∀ (held : List Value) (shape : ShapeId) (s : DecodeState) (object : Object) (t : DecodeState),
    s.source.Ascending → input.Owned held s → readFields shape s = .ok object t →
      input.Owned ((Node.object object).children ++ held) t

theorem objectSlot_owned {arena : Nat} {readFields : ShapeId → Decode Object}
    {expected : Option ShapeId} {nullable : Bool} (hin : input.InRange arena)
    (hs : s.source.Ascending) (howned : input.Owned held s)
    (hfields : FieldsOwned input readFields)
    (h : input.objectSlot readFields expected nullable s = .ok value t) :
    input.Owned (value :: held) t := by
  rcases objectSlot_cases hs h with ⟨-, rfl, htook⟩ | ⟨index, offset, u, htook, href⟩ |
    ⟨shape, object, u, v, hplace⟩
  · exact (howned.took htook).cons fun id hid => by simp [Value.node?] at hid
  · obtain ⟨hlt, rfl, rfl⟩ := objectRef_eq_ok.mp href
    have hbound := hin.tables _ (slotsFor_mem hlt).1
    refine ((howned.took htook).cons fun id hid => ?_).congr (.refl _) rfl
    obtain rfl := Option.some.inj hid
    simp only [tableEnd]
    omega
  · have hv := hfields held shape u object v hplace.marker.ascending (howned.took hplace.marker)
      hplace.fields
    rw [hplace.value_eq]
    exact hv.push (by rw [hplace.state_eq])

theorem Plain.node?_lt {tag : Tag} {nullable : Bool} (h : Plain input tag nullable value) :
    ∀ id, value.node? = some id → id.index < input.tableEnd := by
  intro id hid
  cases h with
  | array nullable index hlt =>
      obtain rfl := Option.some.inj hid
      exact Nat.add_lt_add_left hlt _
  | null | trueValue | falseValue | integer | double | string | absentString | absentArray =>
      simp [Value.node?] at hid

theorem underTag_owned {arena : Nat} {readFields : ShapeId → Decode Object} {tag : Tag}
    {nullable : Bool} (hin : input.InRange arena) (hs : s.source.Ascending)
    (howned : input.Owned held s) (hfields : FieldsOwned input readFields)
    (h : input.underTag readFields tag nullable s = .ok value t) :
    input.Owned (value :: held) t := by
  rcases underTag_cases hs h with ⟨hplain, htook⟩ | ⟨expected, -, hslot⟩
  · exact (howned.took htook).cons hplain.node?_lt
  · exact objectSlot_owned hin hs howned hfields hslot

theorem slot_owned {arena : Nat} {readFields : ShapeId → Decode Object} {codec : Codec}
    (hin : input.InRange arena) (hs : s.source.Ascending) (howned : input.Owned held s)
    (hfields : FieldsOwned input readFields) (h : input.slot readFields codec s = .ok value t) :
    input.Owned (value :: held) t := by
  rcases slot_cases hs h with ⟨decl, tag, u, -, -, -, -, htook, hunder⟩ | ⟨tag, nullable, -, hunder⟩
  · exact underTag_owned hin htook.ascending (howned.took htook) hfields hunder
  · exact underTag_owned hin hs howned hfields hunder

theorem fieldSlots_owned {arena : Nat} {readFields : ShapeId → Decode Object}
    (hin : input.InRange arena) (hr : input.registry.Valid) (hadvances : Advances readFields)
    (hfields : FieldsOwned input readFields) : FieldsOwned input (input.fieldSlots readFields) := by
  intro held shape s object t hs howned h
  obtain ⟨values, hvalues, rfl⟩ := fieldSlots_eq_ok.mp h
  obtain ⟨-, hlength, ht⟩ := run_mapM_induction
    (motive := fun done values u => u.source.Ascending ∧ values.length = done.length ∧
      input.Owned (values ++ held) u) hvalues ⟨hs, rfl, howned⟩
    fun done values field value u v _ hu hslot => by
      obtain ⟨hu, hlength, howned⟩ := hu
      have hv := slot_owned hin hu howned hfields hslot
      refine ⟨(slot_advance hu hadvances hslot).ascending, by simp [hlength], hv.congr ?_ rfl⟩
      rw [List.append_assoc]
      exact List.perm_middle.symm
  have hnames : ((((input.registry.fields shape).map (·.name)).zip values).map (·.1)).Nodup := by
    rw [List.map_fst_zip (by simp [hlength])]
    exact hr.fields_nodup_names shape
  rw [Object.fields_ofFields hnames, Node.children, List.map_snd_zip (by simp [hlength])]
  exact ht

theorem fieldsWithin_owned {arena : Nat} (hin : input.InRange arena) (hr : input.registry.Valid)
    (depth : Nat) : FieldsOwned input (input.fieldsWithin depth) := by
  induction depth with
  | zero =>
      intro held shape s object t hs howned h
      obtain ⟨u, v, -, h₁⟩ := run_bind_eq_ok.mp h
      simp at h₁
  | succ depth ih => exact fieldSlots_owned hin hr (fieldsWithin_advances depth) ih

theorem objectFields_owned {arena : Nat} (hin : input.InRange arena) (hr : input.registry.Valid) :
    FieldsOwned input input.objectFields :=
  fieldsWithin_owned hin hr _

/-! ### Sections -/

variable {arena : Nat}

theorem readTable_owned {slots : ObjectSlots} {r : Unit} (hin : input.InRange arena)
    (hr : input.registry.Valid) (hs : s.source.Ascending) (howned : input.Owned [] s)
    (h : input.readTable slots s = .ok r t) : input.Owned [] t := by
  obtain ⟨u, items, htook, hloop⟩ := readTable_eq_ok hs h
  refine (Decode.replicate_induction
    (motive := fun _ v => v.source.Ascending ∧ input.Owned [] v) hloop
    ⟨htook.ascending, howned.took htook⟩ fun done v _ w _ hv hstep => ?_).2.2
  obtain ⟨hv, howned⟩ := hv
  obtain ⟨shape, object, x, y, hentry⟩ := readTableEntry_eq_ok hv hstep
  have hy := objectFields_owned hin hr [] shape x object y hentry.tag.ascending
    (howned.took hentry.tag) hentry.fields
  exact ⟨hentry.pays.ascending, hy.setNode (by rw [hentry.state_eq])⟩

theorem readElements_owned {length : Nat} {elements : List Value} (hin : input.InRange arena)
    (hr : input.registry.Valid) (hs : s.source.Ascending) (howned : input.Owned [] s)
    (h : input.readElements length s = .ok elements t) : input.Owned elements t := by
  rcases readElements_eq_ok hs h with ⟨-, rfl, rfl⟩ | ⟨tag, u, -, htook, hloop⟩
  · exact howned
  · refine (Decode.replicate_induction
      (motive := fun done v => v.source.Ascending ∧ input.Owned done v) hloop
      ⟨htook.ascending, howned.took htook⟩ fun done v value w _ hv hslot => ?_).2.2
    obtain ⟨hv, howned⟩ := hv
    have hw := slot_owned hin hv howned (objectFields_owned hin hr) hslot
    exact ⟨(slot_advance hv objectFields_advances hslot).ascending,
      hw.congr (List.perm_append_singleton value done).symm rfl⟩

theorem readArrays_owned {r : Unit} (hin : input.InRange arena) (hr : input.registry.Valid)
    (hs : s.source.Ascending) (howned : input.Owned [] s) (h : input.readArrays s = .ok r t) :
    input.Owned [] t := by
  obtain ⟨u, items, htook, hloop⟩ := readArrays_eq_ok hs h
  refine (Decode.replicate_induction
    (motive := fun _ v => v.source.Ascending ∧ input.Owned [] v) hloop
    ⟨htook.ascending, howned.took htook⟩ fun done v _ w _ hv hstep => ?_).2.2
  obtain ⟨hv, howned⟩ := hv
  obtain ⟨length, elements, x, y, htook, -, helements, heq⟩ := readArray_eq_ok hv hstep
  have hy : input.Owned ((Node.array elements).children ++ []) y := by
    rw [List.append_nil]
    exact readElements_owned hin hr htook.ascending (howned.took htook) helements
  exact ⟨(readArray_pays hv hstep).ascending, hy.setNode (by rw [heq])⟩

/-- Entering a section leaves the nodes alone. -/
theorem inSection_owned {α : Type} {label : String} {content : Decode α} {a : α}
    {held' : List Value} (hs : s.source.Ascending) (howned : input.Owned held s)
    (h : Decode.inSection label content s = .ok a t)
    (hcontent : ∀ u, u.source.Ascending → input.Owned held u → content u = .ok a t →
      input.Owned held' t) : input.Owned held' t := by
  obtain ⟨body, rest, hread, hrun, -⟩ := Decode.inSection_eq_ok.mp h
  exact hcontent _ (pays_section hs hread).ascending (howned.congr (.refl _) rfl) hrun

/-- When all sections have been read, every node past the tables is referred to at most
once, the root included. -/
theorem readSections_owned {root : Value} (hin : input.InRange arena) (hr : input.registry.Valid)
    (hs : s.source.Ascending) (howned : input.Owned [] s) (h : input.readSections s = .ok root t) :
    input.Owned [root] t := by
  obtain ⟨u, v, w, hstreams, htables, harrays, hroot, -⟩ := readSections_eq_ok h
  have hu := readStreams_eq_ok hs hstreams
  obtain ⟨hv, hvowned⟩ := run_forM_induction
    (motive := fun _ v => v.source.Ascending ∧ input.Owned [] v) htables
    ⟨hu.pays.ascending, howned.congr (.refl _) hu.nodes⟩ fun done slots _ v w _ hv hstep => by
      obtain ⟨body, rest, hread, htable, -⟩ := Decode.inSection_eq_ok.mp hstep
      have hstart := pays_section hv.1 hread
      exact ⟨(readTable_pays hstart.ascending htable).ascending,
        inSection_owned hv.1 hv.2 hstep fun _ hu hu' hrun => readTable_owned hin hr hu hu' hrun⟩
  have hwowned := inSection_owned hv hvowned harrays fun _ hu hu' hrun =>
    readArrays_owned hin hr hu hu' hrun
  obtain ⟨body, rest, hread, hcontent, -⟩ := Decode.inSection_eq_ok.mp harrays
  have hw := (readArrays_pays (pays_section hv hread).ascending hcontent).ascending
  exact inSection_owned hw hwowned hroot fun _ hu hu' hrun =>
    slot_owned hin hu hu' (objectFields_owned hin hr) hrun

/-- The nodes that are set up refer to nothing yet. -/
theorem owned_of_setUp {registry : Registry} {bytes : List UInt8}
    (h : SetUp registry bytes input s) : input.Owned [] s := by
  intro id _
  have hnone : ∀ node ∈ s.nodes.toList, node.references = [] := by
    intro node hnode
    rw [h.nodes, toList_blankNodes] at hnode
    rcases List.mem_append.mp hnode with hobject | harray
    · obtain ⟨slots, -, hblank⟩ := List.mem_flatMap.mp hobject
      rw [ObjectSlots.blank, Array.toList_replicate] at hblank
      rw [(List.mem_replicate.mp hblank).2]
      rfl
    · rw [(List.mem_replicate.mp harray).2]
      rfl
  have hzero : s.nodes.toList.map (·.references.count id) = s.nodes.toList.map fun _ => 0 :=
    List.map_congr_left fun node hnode => by rw [hnone node hnode, List.count_nil]
  simp [uses, hzero]

end DecodeInput

end Module

end SyntaxPack
