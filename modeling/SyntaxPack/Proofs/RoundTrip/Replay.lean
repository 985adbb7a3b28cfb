import SyntaxPack.Proofs.Decode.Sections
import SyntaxPack.Proofs.Encode.Slots
import SyntaxPack.Proofs.RoundTrip.Loaded
/-!
# SyntaxPack.Proofs.RoundTrip.Replay

Reading a module back, in step with how it was written.

Every node of the decoder was written for a node of the tree, its *origin*: a table entry
for the node that stands at its index, an object in place for the object whose fields were
written there. The decoder does not know the origins, so they go along with its state as
a list that only grows. `Replay.At` says what a state is worth in the middle of a module: the
tokens that are still to be read are loaded, and every node that has been read is a copy of
its origin. `Replay.Reads` is the step from one such state to another; steps are put
together with `Reads.bind`, as the tokens they take are appended.
-/

namespace SyntaxPack

/-- The object of a shape whose declared fields have given values. -/
def Registry.objectOf (registry : Registry) (shape : ShapeId) (values : List Value) : Object :=
  Object.ofFields (registry.shapeName shape) (((registry.fields shape).map (·.name)).zip values)

namespace Module

/-! ### Copies

A node of the tree and its copy in the arena of the decoder have different identifiers, and with
deduplication several nodes have one copy. What they share is the number of their class, so values
are compared by the numbers of the nodes that they refer to. -/

/-- A decoded value stands for a value of the tree: for the same one, or for a node of the
same number as the origin of the decoded one. -/
inductive Copies (rank : NodeId → Nat) (origins : List NodeId) : Value → Value → Prop
  | plain {value : Value} (h : value.node? = none) : Copies rank origins value value
  | array {id origin : NodeId} {i : Nat} (h : origins[i]? = some origin)
      (hrank : rank origin = rank id) : Copies rank origins (.array id) (.array ⟨i⟩)
  | object {id origin : NodeId} {i : Nat} (h : origins[i]? = some origin)
      (hrank : rank origin = rank id) : Copies rank origins (.object id) (.object ⟨i⟩)

variable {rank : NodeId → Nat} {origins origins' : List NodeId}

/-- What has been found in a list stays where it is when the list grows. -/
theorem getElem?_mono {α : Type} {l l' : List α} {i : Nat} {a : α} (hl : l <+: l')
    (h : l[i]? = some a) : l'[i]? = some a := by
  obtain ⟨added, rfl⟩ := hl
  rw [List.getElem?_append_left (List.getElem?_eq_some_iff.mp h).1, h]

theorem Copies.mono {value value' : Value} (h : Copies rank origins value value')
    (ho : origins <+: origins') : Copies rank origins' value value' := by
  cases h with
  | plain hnode => exact .plain hnode
  | array hget hrank => exact .array (getElem?_mono ho hget) hrank
  | object hget hrank => exact .object (getElem?_mono ho hget) hrank

theorem copies_mono {values values' : List Value} (ho : origins <+: origins')
    (h : List.Forall₂ (Copies rank origins) values values') :
    List.Forall₂ (Copies rank origins') values values' :=
  h.imp fun _ _ hcopies => hcopies.mono ho

/-- The slots of object tables whose nodes are consecutive from position `first` on. -/
def slotsOf (registry : Registry) : Nat → List ObjectTable → List ObjectSlots
  | _, [] => []
  | first, table :: tables =>
    ⟨table.shape.elim ObjectTables.sharedLabel (ObjectTables.labelOf ∘ registry.shapeName),
        table.shape, first, table.table.keys.length⟩ ::
      slotsOf registry (first + table.table.keys.length) tables

/-- A finalized module that is read back. -/
structure Replay where
  /-- The tree, its registry and the configuration. -/
  input : WalkInput
  /-- The shapes in use. -/
  shapes : List ShapeId
  /-- The numbers of the nodes. -/
  rank : NodeId → Nat
  /-- The module. -/
  module : Module
  /-- The number of bytes of the module. -/
  size : Nat

namespace Replay

variable (c : Replay)

/-- What writes the module. -/
abbrev writer : WriteInput := c.input.writer c.module

/-- The number of objects in tables. -/
def objectCount : Nat := (c.module.objects.tables.map (·.table.keys.length)).sum

/-- What the decoder knows of the module once the tables are set up. -/
abbrev decoder : DecodeInput where
  registry := c.input.registry
  wire := c.input.config.wire
  tags := (tagsOf c.shapes).toArray
  strings := c.module.strings.keys.toArray
  tables := slotsOf c.input.registry 0 c.module.objects.tables
  firstArray := c.objectCount
  arrayCount := c.module.arrays.keys.length
  size := c.size

/-- The module is the finalized one of the tree. -/
abbrev IsBuilt : Prop := Located c.input c.shapes c.rank c.module

/-- The nodes of the tables, in the order in which the decoder sets them up. -/
def order : List NodeId :=
  c.module.objects.tables.flatMap (·.table.keys) ++ c.module.arrays.keys

/-- A decoded node is a copy of a node of the tree. -/
inductive CopiesNode (origins : List NodeId) (id : NodeId) : Node → Prop
  | array {elements values : List Value} (h : c.input.tree.array? id = some elements)
      (hvalues : List.Forall₂ (Copies c.rank origins) elements values) :
      CopiesNode origins id (.array values)
  | object {shape : ShapeId} {values : List Value}
      (h : c.input.tree.shape? c.input.registry id = some shape)
      (hvalues : List.Forall₂ (Copies c.rank origins) (c.input.tree.slots c.input.registry id) values) :
      CopiesNode origins id (.object (c.input.registry.objectOf shape values))

variable {c}

theorem CopiesNode.mono {id : NodeId} {node : Node} (h : c.CopiesNode origins id node)
    (ho : origins <+: origins') : c.CopiesNode origins' id node := by
  cases h with
  | array harray hvalues => exact .array harray (copies_mono ho hvalues)
  | object hshape hvalues => exact .object hshape (copies_mono ho hvalues)

/-! ### States

`At` is the invariant of the whole decoding. Its `copied` speaks of the nodes that were read so far:
those of the tables up to `next`, and all objects in place, which stand behind the tables. -/

/-- A place in a module between two tokens. -/
structure Position where
  /-- The tokens of the sections that follow. -/
  later : List Token
  /-- What follows the section. -/
  file : Reader
  /-- The number of nodes of the tables that have been read. -/
  next : Nat

/-- What is known of the decoder's state in the middle of a module. -/
structure At (c : Replay) (p : Position) (origins : List NodeId) (pending : List Token)
    (s : DecodeState) : Prop where
  file : s.input = p.file
  loaded : s.source.Loaded c.input.config.valueStreams pending p.later
  left_le : s.left ≤ c.size
  order : c.order <+: origins
  hasNode : ∀ id ∈ origins, c.module.HasNode c.input.tree c.input.registry id
  size_eq : s.nodes.size = origins.length
  inPlace : ∀ i origin, c.order.length ≤ i → origins[i]? = some origin →
    c.input.config.inlineObjects = true ∧ origin ∉ c.order
  copied : ∀ i origin, origins[i]? = some origin → i < p.next ∨ c.order.length ≤ i →
    ∃ node, s.nodes[i]? = some node ∧ c.CopiesNode origins origin node
  shapeRefs : ∀ ref ∈ s.shapeRefs, ∃ origin, origins[ref.node.index]? = some origin ∧
    c.input.tree.shape? c.input.registry origin = some ref.shape

/-- Wherever these tokens are next, a step takes them and has a result for which `good`
holds. The nodes that `base` is the origins of are there already. -/
def Reads {α : Type} (c : Replay) (base : List NodeId) (step : Decode α) (tokens : List Token)
    (good : List NodeId → α → Prop) : Prop :=
  ∀ p origins rest s, base <+: origins → c.At p origins (tokens ++ rest) s →
    ∃ a t origins', step s = .ok a t ∧ origins <+: origins' ∧ c.At p origins' rest t ∧ good origins' a

namespace Reads

variable {α β : Type} {base : List NodeId} {x y : List Token}
  {good : List NodeId → α → Prop} {good' : List NodeId → β → Prop} {step : Decode α}

theorem pure {a : α} (h : ∀ origins, base <+: origins → good origins a) :
    c.Reads base (Pure.pure a) [] good := by
  intro p origins rest s hbase hs
  exact ⟨a, s, origins, rfl, List.prefix_refl _, hs, h origins hbase⟩

theorem bind {next : α → Decode β} (hstep : c.Reads base step x good)
    (hnext : ∀ origins a, base <+: origins → good origins a →
      c.Reads origins (next a) y good') :
    c.Reads base (step >>= next) (x ++ y) good' := by
  intro p origins rest s hbase hs
  rw [List.append_assoc] at hs
  obtain ⟨a, t, origins₁, hrun, hgrow, ht, hgood⟩ := hstep p origins _ s hbase hs
  obtain ⟨b, u, origins₂, hrun', hgrow', hu, hgood'⟩ :=
    hnext origins₁ a (hbase.trans hgrow) hgood p origins₁ rest t (List.prefix_refl _) ht
  exact ⟨b, u, origins₂, (run_bind_of_ok hrun).trans hrun', hgrow.trans hgrow', hu, hgood'⟩

theorem weaken {good' : List NodeId → α → Prop} (h : c.Reads base step x good)
    (hgood : ∀ origins a, base <+: origins → good origins a → good' origins a) :
    c.Reads base step x good' := by
  intro p origins rest s hbase hs
  obtain ⟨a, t, origins', hrun, hgrow, ht, ha⟩ := h p origins rest s hbase hs
  exact ⟨a, t, origins', hrun, hgrow, ht, hgood origins' a (hbase.trans hgrow) ha⟩

/-- What comes after a step can rely on it, wherever it leads to. -/
theorem followed {next : α → Decode β} {p q : Position} {origins : List NodeId}
    {rest rest' : List Token} {s : DecodeState} {b : β} (hstep : c.Reads origins step x good)
    (hs : c.At p origins (x ++ rest) s)
    (hnext : ∀ origins' a t, origins <+: origins' → good origins' a → c.At p origins' rest t →
      ∃ u last, next a t = .ok b u ∧ c.At q last rest' u) :
    ∃ u last, (step >>= next) s = .ok b u ∧ c.At q last rest' u := by
  obtain ⟨a, t, origins', hrun, hgrow, ht, ha⟩ := hstep p origins rest s (List.prefix_refl _) hs
  rw [run_bind_of_ok hrun]
  exact hnext origins' a t hgrow ha ht

/-- A step that runs like another one wherever the tokens are next. -/
theorem congr {other : Decode α} (h : c.Reads base step x good)
    (heq : ∀ p origins rest s, c.At p origins (x ++ rest) s → other s = step s) :
    c.Reads base other x good := by
  intro p origins rest s hbase hs
  rw [heq p origins rest s hs]
  exact h p origins rest s hbase hs

end Reads

/-! ### Steps

The primitive steps of the decoder as `Reads`. A step that takes bytes takes them from the token
that is loaded next, in its stream or in the section. -/

variable {α : Type} {base : List NodeId}

/-- A step that changes nothing. -/
theorem reads_of_run {step : Decode α} {a : DecodeState → α} {good : List NodeId → α → Prop}
    (hrun : ∀ s, step s = .ok (a s) s)
    (hgood : ∀ s origins, base <+: origins → good origins (a s)) :
    c.Reads base step [] good := by
  intro p origins rest s hbase hs
  exact ⟨a s, s, origins, hrun s, List.prefix_refl _, hs, hgood s origins hbase⟩

theorem reads_offset : c.Reads base Decode.offset [] fun _ _ => True :=
  reads_of_run (fun _ => rfl) fun _ _ _ => trivial

theorem reads_ensure {p : Prop} [Decidable p] {error : Error} (h : p) :
    c.Reads base (Decode.ensure p error) [] fun _ _ => True :=
  reads_of_run (fun _ => by simp [Decode.ensure, h]; rfl) fun _ _ _ => trivial

theorem reads_require {found : Option α} {error : DecodeError} {a : α} (h : found = some a) :
    c.Reads base (Decode.require found error) [] fun _ b => b = a :=
  reads_of_run (fun _ => by subst h; rfl) fun _ _ _ => rfl

/-- A read that takes certain bytes, and what its result satisfies. -/
def Accepts (read : Read α) (bytes : List UInt8) (good : α → Prop) : Prop :=
  ∀ rest offset, ∃ a, read ⟨bytes ++ rest, offset⟩ = .ok a ⟨rest, offset + bytes.length⟩ ∧ good a

theorem accepts_of_takes {read : Read α} {bytes : List UInt8} {a : α} (h : read.Takes bytes a) :
    Accepts read bytes (· = a) := by
  intro rest offset
  exact ⟨a, h rest offset, rfl⟩

theorem accepts_located {read : Read α} {bytes : List UInt8} {a : α} (h : read.Takes bytes a) :
    Accepts (DecodeInput.located read) bytes (·.2 = a) := by
  intro rest offset
  refine ⟨(offset, a), ?_, rfl⟩
  rw [DecodeInput.located, run_bind_of_ok Read.run_offset, run_bind_of_ok (h rest offset)]
  rfl

/-- Taking bytes changes what is loaded, and nothing else. -/
theorem At.take {p : Position} {origins : List NodeId} {pending rest : List Token} {s : DecodeState}
    {source : StreamReader} (h : c.At p origins pending s)
    (hloaded : source.Loaded c.input.config.valueStreams rest p.later)
    (hunread : source.unread ≤ s.source.unread) :
    c.At p origins rest { s with source := source } :=
  ⟨h.file, hloaded, Nat.le_trans (Nat.add_le_add_left hunread _) h.left_le, h.order, h.hasNode,
    h.size_eq, h.inPlace, h.copied, h.shapeRefs⟩

theorem reads_fromStream {read : Read α} {bytes : List UInt8} {good : α → Prop} {key : Nat}
    (hread : Accepts read bytes good) (hbytes : bytes ≠ []) :
    c.Reads base (Decode.fromStream key read) [⟨some key, bytes⟩] fun _ => good := by
  intro p origins rest s hbase hs
  rw [List.singleton_append] at hs
  obtain ⟨start, unread, hroute, hrest⟩ := hs.loaded.route hbytes
  obtain ⟨a, hrun, hgood⟩ := hread unread start
  have htotal := StreamReader.unread_advance hs.loaded.ascending hroute
    ⟨unread, start + bytes.length⟩
  refine ⟨a, _, origins, Decode.fromStream_eq_ok.mpr ⟨_, _, hroute, hrun, rfl⟩,
    List.prefix_refl _, hs.take (hrest _) ?_, hgood⟩
  simp only [Reader.remaining, List.length_append] at htotal
  omega

theorem reads_fromSection {read : Read α} {bytes : List UInt8} {good : α → Prop}
    (hread : Accepts read bytes good) :
    c.Reads base (Decode.fromSection read) [⟨none, bytes⟩] fun _ => good := by
  intro p origins rest s hbase hs
  rw [List.singleton_append] at hs
  obtain ⟨hbody, hrest⟩ := hs.loaded.plain (s.source.body.offset + bytes.length)
  obtain ⟨a, hrun, hgood⟩ := hread (Token.sectionBytes c.input.config.valueStreams rest)
    s.source.body.offset
  rw [← hbody] at hrun
  refine ⟨a, _, origins, Decode.fromSection_eq_ok.mpr ⟨_, hrun, rfl⟩, List.prefix_refl _,
    hs.take hrest ?_, hgood⟩
  simp only [StreamReader.unread_eq, Reader.remaining, hbody, List.length_append]
  omega

/-! ### Nodes

The two places where the arena changes: an object in place is pushed behind all others and has its
origin recorded, and a node of the tables takes the position that was set up for it. -/

/-- An object in place becomes a copy of the object whose fields were read. -/
theorem reads_pushNode {id : NodeId} {node : Node} (hinline : c.input.config.inlineObjects = true)
    (hid : c.module.HasNode c.input.tree c.input.registry id) (hnew : id ∉ c.order)
    (hnode : c.CopiesNode base id node) :
    c.Reads base (pushNode node) [] fun origins pushed => origins[pushed.index]? = some id := by
  intro p origins rest s hbase hs
  have hgrow : origins <+: origins ++ [id] := List.prefix_append _ _
  have hlast : (origins ++ [id])[s.nodes.size]? = some id := by
    rw [hs.size_eq]
    exact List.getElem?_concat_length
  have hcases : ∀ i origin, (origins ++ [id])[i]? = some origin →
      (i = s.nodes.size ∧ origin = id) ∨ (i ≠ s.nodes.size ∧ origins[i]? = some origin) := by
    intro i origin hget
    by_cases hi : i = s.nodes.size
    · exact Or.inl ⟨hi, Option.some.inj (hget.symm.trans (hi ▸ hlast))⟩
    · have hlt := (List.getElem?_eq_some_iff.mp hget).1
      have hsize := hs.size_eq
      rw [List.length_append, List.length_singleton] at hlt
      rw [List.getElem?_append_left (by omega)] at hget
      exact Or.inr ⟨hi, hget⟩
  refine ⟨⟨s.nodes.size⟩, { s with nodes := s.nodes.push node }, origins ++ [id], rfl, hgrow,
    ⟨hs.file, hs.loaded, hs.left_le, hs.order.trans hgrow, ?_, ?_, ?_, ?_, ?_⟩, hlast⟩
  · intro other hother
    rcases List.mem_append.mp hother with hother | hother
    · exact hs.hasNode other hother
    · exact List.mem_singleton.mp hother ▸ hid
  · simp [hs.size_eq]
  · intro i origin hi hget
    rcases hcases i origin hget with ⟨-, rfl⟩ | ⟨-, hget⟩
    · exact ⟨hinline, hnew⟩
    · exact hs.inPlace i origin hi hget
  · intro i origin hget hread
    rcases hcases i origin hget with ⟨rfl, rfl⟩ | ⟨hi, hget⟩
    · exact ⟨node, by simp, hnode.mono (hbase.trans hgrow)⟩
    · obtain ⟨old, hold, hcopies⟩ := hs.copied i origin hget hread
      refine ⟨old, ?_, hcopies.mono hgrow⟩
      rw [Array.getElem?_push, if_neg hi]
      exact hold
  · intro ref href
    obtain ⟨origin, hget, hshape⟩ := hs.shapeRefs ref href
    exact ⟨origin, getElem?_mono hgrow hget, hshape⟩

/-- Putting the next node of the tables into its place. -/
theorem At.setNode {later : List Token} {file : Reader} {next : Nat} {origins : List NodeId}
    {pending : List Token} {s : DecodeState} {id : NodeId} {node : Node}
    (h : c.At ⟨later, file, next⟩ origins pending s) (hnext : c.order[next]? = some id)
    (hnode : c.CopiesNode origins id node) :
    c.At ⟨later, file, next + 1⟩ origins pending
      { s with nodes := s.nodes.setIfInBounds next node } := by
  have hid := getElem?_mono h.order hnext
  refine ⟨h.file, h.loaded, h.left_le, h.order, h.hasNode, by simpa using h.size_eq, h.inPlace, ?_,
    h.shapeRefs⟩
  intro i origin hget hread
  by_cases hi : next = i
  · subst hi
    obtain rfl : id = origin := Option.some.inj (hid.symm.trans hget)
    have hlt : next < s.nodes.size := by
      rw [h.size_eq]
      exact (List.getElem?_eq_some_iff.mp hid).1
    exact ⟨node, by simp [hlt], hnode⟩
  · have hread' : i < next ∨ c.order.length ≤ i := by
      have hlt : i < next + 1 ∨ c.order.length ≤ i := hread
      omega
    obtain ⟨old, hold, hcopies⟩ := h.copied i origin hget hread'
    exact ⟨old, by rwa [Array.getElem?_setIfInBounds_ne hi], hcopies⟩

end Replay

end Module

end SyntaxPack
