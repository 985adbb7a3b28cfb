import SyntaxPack.Proofs.Encode.Log
import SyntaxPack.Proofs.Encode.Mirror
import SyntaxPack.Proofs.Encode.Progress
/-!
# SyntaxPack.Proofs.Encode.Trace

Two walks over trees that look the same.

A `Trace` is a walk together with everything that it met. Where two trees correspond from
their roots on, their walks meet corresponding values, though not in step: the one may
share what the other repeats. What both have in common are the unfolded trees, so first
occurrences correspond (`Twins.firsts`), and so do the numbers of occurrences as far as
nodes correspond one to one (`Twins.countP_le`).

The two statements are proved in different ways. First occurrences are those of the preorder of
the unfolded tree, cut off at a depth that suffices for both (`Trace.eraseDups_log`). Numbers of
occurrences cannot be had from there, for unfolding repeats what is shared. They are counted
over the slots of all opened nodes, each of which is opened once (`Trace.countP_log`).

A trace also has what finalizing makes of its tables, and what the checks of the walk were passed
with, so a tree that looks like one that was walked can be walked itself (`Trace.walk_ok`).
-/

namespace SyntaxPack

namespace Module

theorem countP_flatMap_le {α β : Type} {l l' : List α} (h : l.Subperm l') (f : α → List β)
    (p : β → Bool) : (l.flatMap f).countP p ≤ (l'.flatMap f).countP p := by
  obtain ⟨middle, hperm, hsublist⟩ := h
  rw [← (hperm.flatMap_right f).countP_eq]
  exact (hsublist.flatMap f).countP_le

/-- A walk to the end, with what it met, the nodes that it opened and those that it left. The lists
are not returned by the walk; that they exist is `WalkInput.exists_trace`. -/
structure Trace (input : WalkInput) where
  /-- The tables after the walk. -/
  module : Module
  /-- The values that were met, repetitions included. -/
  log : List Value
  /-- The nodes in the order in which they were opened. -/
  opened : List NodeId
  /-- The nodes in the order in which they were left. -/
  postOrder : List NodeId
  walked : input.Walked module postOrder
  logged : Logged input log module
  visits : Visits (input.tree.slots input.registry) [] [input.tree.root] log opened postOrder

theorem WalkInput.exists_trace {input : WalkInput} {m : Module} {postOrder : List NodeId}
    (hr : input.registry.Valid) (h : input.walk = .ok (m, postOrder)) :
    ∃ w : Trace input, w.module = m ∧ w.postOrder = postOrder := by
  obtain ⟨log, opened, hlogged, hvisits⟩ := WalkInput.exists_log hr h
  exact ⟨⟨m, log, opened, postOrder, WalkInput.walked_of_walk hr h, hlogged, hvisits⟩, rfl, rfl⟩

theorem TagTable.unique {registry : Registry} {shapes shapes' : List ShapeId} {t : Table String Tag}
    (h : TagTable registry shapes t) (h' : TagTable registry shapes' t) : shapes = shapes' :=
  tagsOf_inj (h.values.symm.trans h'.values)

namespace Trace

variable {input : WalkInput} (w : Trace input) {id : NodeId} {value : Value}

/-- The nodes of the trace are registered. -/
abbrev HasNode (id : NodeId) : Prop := w.module.HasNode input.tree input.registry id

/-- The shapes in use, in the order of their tags. -/
abbrev shapes : List ShapeId := input.shapesOf w.log

/-- The number of a node: its position in the order in which nodes are left. -/
abbrev rank (id : NodeId) : Nat := w.postOrder.idxOf id

theorem filled : Filled input.tree input.registry w.shapes w.module := by
  obtain ⟨shapes, hf⟩ := w.walked.gathered.filled
  obtain rfl := hf.tags.unique w.logged.tags
  exact hf

/-- A node is opened just if it is registered. -/
theorem mem_opened : id ∈ w.opened ↔ w.HasNode id :=
  w.visits.closed_perm.mem_iff.symm.trans (w.walked.mem_iff id)

theorem nodup_opened : w.opened.Nodup := w.visits.closed_perm.nodup_iff.mp w.walked.nodup

theorem hasNode_slot (hid : w.HasNode id) {child : NodeId}
    (hvalue : value ∈ input.tree.slots input.registry id) (hchild : value.node? = some child) :
    w.HasNode child :=
  ((w.walked.complete id ((w.walked.mem_iff id).mpr hid)).slots value hvalue).hasNode hchild

theorem hasNode_root (hid : input.tree.root.node? = some id) : w.HasNode id :=
  w.walked.root.hasNode hid

/-- Values are met as often as they stand in the root and in the slots of opened nodes. -/
theorem countP_log (p : Value → Bool) : w.log.countP p =
    [input.tree.root].countP p + (w.opened.flatMap (input.tree.slots input.registry)).countP p := by
  rw [w.visits.perm.countP_eq, List.countP_append]

theorem mem_log : value ∈ w.log ↔ value = input.tree.root ∨
    ∃ id, w.HasNode id ∧ value ∈ input.tree.slots input.registry id := by
  rw [w.visits.perm.mem_iff, List.mem_append, List.mem_singleton, List.mem_flatMap]
  simp only [w.mem_opened]

theorem holds_of_mem_log (hvalue : value ∈ w.log) :
    w.module.Holds input.tree input.registry value := by
  rcases w.mem_log.mp hvalue with rfl | ⟨parent, hparent, hslot⟩
  · exact w.walked.root
  · exact (w.walked.complete parent ((w.walked.mem_iff parent).mpr hparent)).slots value hslot

theorem hasNode_of_mem_log (hvalue : value ∈ w.log) (hid : value.node? = some id) : w.HasNode id :=
  (w.holds_of_mem_log hvalue).hasNode hid

/-- Every node is met. -/
theorem exists_mem_log (hid : w.HasNode id) : ∃ value ∈ w.log, value.node? = some id :=
  w.visits.exists_of_opened (w.mem_opened.mpr hid)

/-- The nodes are opened in the order in which they are met. A node is met as one kind only, so the
values that lead to it are equal. -/
theorem opened_eq : (w.log.filterMap Value.node?).eraseDups = w.opened := by
  refine w.visits.opened_eq fun left hleft right hright id hid hid' => ?_
  have hholds := w.holds_of_mem_log hleft
  have hholds' := w.holds_of_mem_log hright
  -- an array is no object
  have hapart : ∀ {id : NodeId}, w.module.Holds input.tree input.registry (.array id) →
      w.module.Holds input.tree input.registry (.object id) → False := by
    rintro id ⟨harray, -⟩ ⟨shape, hshape, -⟩
    obtain ⟨object, hobject, -⟩ := Tree.shape?_eq_some_iff.mp hshape
    simp [Tree.array?_eq_none_of_object hobject] at harray
  cases left with
  | null | boolean _ | number _ | string _ => simp [Value.node?] at hid
  | array x =>
      obtain rfl := Option.some.inj hid
      cases right with
      | null | boolean _ | number _ | string _ => simp [Value.node?] at hid'
      | array y => exact congrArg Value.array (Option.some.inj hid').symm
      | object y =>
          obtain rfl := Option.some.inj hid'
          exact (hapart hholds hholds').elim
  | object x =>
      obtain rfl := Option.some.inj hid
      cases right with
      | null | boolean _ | number _ | string _ => simp [Value.node?] at hid'
      | array y =>
          obtain rfl := Option.some.inj hid'
          exact (hapart hholds' hholds).elim
      | object y => exact congrArg Value.object (Option.some.inj hid').symm

variable {w}

theorem descends {rank : NodeId → Nat}
    (hranking : w.module.Ranking input.tree input.registry rank) :
    Visits.Descends (input.tree.slots input.registry) w.HasNode rank where
  child_known _ hid _ hvalue _ hchild := w.hasNode_slot hid hvalue hchild
  child_lt id hid value hvalue child hchild := hranking.child_lt id hid value hvalue child hchild

/-- What was met first is what is met first in the unfolded tree, cut off at any depth that is at
least the number of nodes. -/
theorem eraseDups_log {rank : NodeId → Nat}
    (hranking : w.module.Ranking input.tree input.registry rank) {depth : Nat}
    (hdepth : input.tree.size ≤ depth) : w.log.eraseDups =
      (Visits.preorder (input.tree.slots input.registry) depth input.tree.root).eraseDups :=
  w.visits.eraseDups_eq (descends hranking) fun id hid =>
    have hnode := w.hasNode_root hid
    ⟨hnode, Nat.lt_of_lt_of_le (hranking.lt_size id hnode) hdepth⟩

/-! ### Finalization

What the tables are if nothing is merged. Every node survives as itself, and the keys of the tables
are functions of the log. -/

variable (w)

/-- The module of the walk if nothing is merged. -/
def finalized : Module := w.module.finalize input.config.ordering input.config.inlineLimit

theorem mergedFrom_self :
    MergedFrom input.tree input.registry w.shapes w.rank w.module w.module :=
  mergedFrom_refl w.filled w.walked.gathered.building w.walked.gathered.unmerged

theorem rank_inj {x y : NodeId} (hx : w.HasNode x) (h : w.rank x = w.rank y) : x = y :=
  (List.idxOf_inj ((w.walked.mem_iff x).mpr hx)).mp h

theorem located (hr : input.registry.Valid) : Located input w.shapes w.rank w.finalized :=
  w.walked.located hr (fun _ _ ha _ heq => by rw [w.rank_inj ha heq]) w.mergedFrom_self

theorem hasNode_finalized :
    w.finalized.HasNode input.tree input.registry id ↔ w.HasNode id :=
  (w.mergedFrom_self.finalize _ _).1 id

theorem ranking_finalized (hranking : w.module.Ranking input.tree input.registry w.rank) :
    w.finalized.Ranking input.tree input.registry w.rank :=
  hranking.congr (fun _ => w.hasNode_finalized) (w.mergedFrom_self.finalize _ _).2

theorem built (hr : input.registry.Valid)
    (hranking : w.module.Ranking input.tree input.registry w.rank) :
    Built input w.shapes w.rank w.finalized :=
  ⟨w.located hr, fun _ => w.ranking_finalized hranking⟩

/-- Before merging, every node survives as itself. -/
theorem repOf_module (hid : w.HasNode id) :
    w.module.repOf input.tree input.registry id = some id := by
  have hplain := w.walked.gathered.unmerged
  rcases hid with ⟨harray, hmem⟩ | ⟨shape, hshape, t, ht, hmem⟩
  · rw [repOf_array harray, hplain.arrays id hmem]
  · rw [repOf_object hshape, ht, Option.bind_some, hplain.objects shape t ht id hmem]

theorem repOf_finalized (hid : w.HasNode id) :
    w.finalized.repOf input.tree input.registry id = some id := by
  have hs := sameTables_finalize w.module input.tree input.registry input.config.ordering
    input.config.inlineLimit
  rw [finalized, hs.repOf, w.repOf_module hid]

theorem keys_strings : w.finalized.strings.keys = UniqueTable.inOrder input.config.ordering
    (w.log.filterMap Value.string?)
    ((w.log.filterMap Value.string?).eraseDups.filter fun _ => true) :=
  w.logged.strings.keys_finalize _ _

theorem keys_arrays : w.finalized.arrays.keys = UniqueTable.inOrder input.config.ordering
    (w.log.filterMap Value.array?)
    ((w.log.filterMap Value.array?).eraseDups.filter fun _ => true) :=
  w.logged.arrays.keys_finalize _ _

/-- Objects that are met often enough are listed in the table of their shape. -/
theorem keys_objects {shape : ShapeId} {t : UniqueTable NodeId}
    (ht : w.finalized.objects.table? shape = some t) :
    t.keys = UniqueTable.inOrder input.config.ordering (input.objectsOf shape w.log)
      ((input.objectsOf shape w.log).eraseDups.filter fun x =>
        input.config.inlineLimit.all (· < (input.objectsOf shape w.log).count x)) := by
  rw [finalized, table?_finalize] at ht
  obtain ⟨u, hu, rfl⟩ := Option.map_eq_some_iff.mp ht
  exact (w.logged.objects shape u hu).keys_finalize _ _

end Trace

/-! ### Values that are alike

The projections that tables count are compared on values that are alike: equal texts, related nodes,
the same shapes. -/

variable {input : WalkInput} {other : Tree} {rel : NodeId → NodeId → Prop} {left right : Value}

theorem rel_flip {a b : Option NodeId} (h : Option.Rel rel a b) : Option.Rel (flip rel) b a := by
  cases h with
  | some hxy => exact .some hxy
  | none => exact .none

theorem string?_of_alike (h : Tree.Alike rel left right) : right.string? = left.string? := by
  cases h <;> rfl

theorem array?_of_alike (h : Tree.Alike rel left right) :
    Option.Rel rel left.array? right.array? := by
  cases h with
  | plain hnode =>
      cases left with
      | array id | object id => simp [Value.node?] at hnode
      | null | boolean _ | number _ | string _ => exact .none
  | array hxy => exact .some hxy
  | object hxy => exact .none

theorem shapeOf?_of_alike (hc : Tree.Corresponding input.tree other input.registry rel)
    (h : Tree.Alike rel left right) :
    other.shapeOf? input.registry right = input.tree.shapeOf? input.registry left := by
  cases h with
  | plain hnode =>
      cases left with
      | array id | object id => simp [Value.node?] at hnode
      | null | boolean _ | number _ | string _ => rfl
  | array hxy => rfl
  | object hxy => exact (hc _ _ hxy).shape?_eq

theorem tabled?_of_alike (hc : Tree.Corresponding input.tree other input.registry rel)
    (partitioned : Bool) (shape : ShapeId) (h : Tree.Alike rel left right) :
    Option.Rel rel (input.tree.tabled? input.registry partitioned shape left)
      (other.tabled? input.registry partitioned shape right) := by
  cases h with
  | plain hnode =>
      cases left with
      | array id | object id => simp [Value.node?] at hnode
      | null | boolean _ | number _ | string _ => exact .none
  | array hxy => exact .none
  | @object x y hxy =>
      have hshape : other.shape? input.registry y = input.tree.shape? input.registry x :=
        (hc x y hxy).shape?_eq
      simp only [Tree.tabled?, Value.object?, Option.filter_some, hshape]
      split
      · exact .some hxy
      · exact .none

/-! ### Checks

Checks of the walk look at tags of values and of elements, which are the same on values that are
alike. The one check that is not passed on by looks is for fields that are not declared, for a node
may have more of them than the one it looks like. -/

theorem leads_of_alike (hc : Tree.Corresponding input.tree other input.registry rel) {m : Module}
    (halike : Tree.Alike rel left right) (h : m.Holds input.tree input.registry left) :
    (input.on other).Leads right := by
  cases halike with
  | plain hnode =>
      cases left with
      | array id | object id => simp [Value.node?] at hnode
      | null | boolean _ | number _ | string _ => exact trivial
  | array hxy => exact (hc _ _ hxy).isSome_array?_eq.trans h.1
  | object hxy =>
      obtain ⟨shape, hshape, -⟩ := h
      exact Option.isSome_iff_exists.mpr ⟨shape, (hc _ _ hxy).shape?_eq.trans hshape⟩

/-- A check of the walk that a field of the one tree passes is passed by that of the other. -/
theorem checkField_of_alike (hc : Tree.Corresponding input.tree other input.registry rel)
    {shape : String} {field : Field} (halike : Tree.Alike rel left right)
    (h : input.checkField shape field left = .ok ()) :
    (input.on other).checkField shape field right = .ok () := by
  have hitems : ∀ {element : TypeDecl} {items others : List Value} {index : Nat},
      List.Forall₂ (Tree.Alike rel) items others →
      input.checkItems shape field element index items = .ok () →
      (input.on other).checkItems shape field element index others = .ok () := by
    intro element items others index hall
    -- Elements are checked one after another, and the index is only for the error.
    induction hall generalizing index with
    | nil => exact fun _ => rfl
    | cons hhead _ ih =>
        intro hcheck
        obtain ⟨tag, htag, h₁⟩ := bind_eq_ok.mp hcheck
        obtain ⟨_, haccepts, h₂⟩ := bind_eq_ok.mp h₁
        exact bind_eq_ok.mpr ⟨tag, hc.tag_of hhead htag, bind_eq_ok.mpr ⟨_, haccepts, ih h₂⟩⟩
  obtain ⟨tag, htag, h₁⟩ := bind_eq_ok.mp h
  obtain ⟨_, haccepts, h₂⟩ := bind_eq_ok.mp h₁
  refine bind_eq_ok.mpr ⟨tag, hc.tag_of halike htag, bind_eq_ok.mpr ⟨_, haccepts, ?_⟩⟩
  cases halike with
  | plain hnode =>
      cases left with
      | array id | object id => simp [Value.node?] at hnode
      | null | boolean _ | number _ | string _ => exact h₂
  | object hxy => exact h₂
  -- Only fields with declared elements are looked into.
  | array hxy =>
      cases helement : field.type.element with
      | none => rfl
      | some element =>
          simp only [helement] at h₂
          obtain ⟨items, hx, h₃⟩ := bind_eq_ok.mp h₂
          obtain ⟨others, hy, hslots⟩ := (hc _ _ hxy).of_array (Tree.requireArray_eq_ok.mp hx)
          exact bind_eq_ok.mpr ⟨others, Tree.requireArray_eq_ok.mpr hy, hitems hslots h₃⟩

/-- What looks like a registered node passes the checks of the walk, if it has no field that is
not declared. -/
theorem Trace.passes (w : Trace input) (hc : Tree.Corresponding input.tree other input.registry rel)
    {x y : NodeId} (hxy : rel x y) (hx : w.HasNode x)
    (honly : other.OnlyDeclared input.registry y) : (input.on other).Passes y where
  slots value hvalue := by
    obtain ⟨left, hleft, halike⟩ := exists_left_of_forall₂ (hc x y hxy).slots hvalue
    exact leads_of_alike hc halike
      ((w.walked.complete x ((w.walked.mem_iff x).mpr hx)).slots left hleft)
  array others hothers := by
    have harray : (input.tree.array? x).isSome = true := by
      rw [← (hc x y hxy).isSome_array?_eq, hothers, Option.isSome_some]
    obtain ⟨elements, helements⟩ := Option.isSome_iff_exists.mp harray
    obtain ⟨found, hfound, hslots⟩ := (hc x y hxy).of_array helements
    obtain rfl := Option.some.inj (hfound.symm.trans hothers)
    obtain ⟨tags, tag, htags, htag, -⟩ :=
      (w.walked.complete x ((w.walked.mem_iff x).mpr hx)).array elements helements
    exact ⟨tags, tag, hc.tags_of hslots htags, WalkInput.elementTag_on input other htag⟩
  object object shape hobject hlookup := by
    have hshape : input.tree.shape? input.registry x = some shape :=
      (hc x y hxy).shape?_eq.symm.trans (Tree.shape?_eq_some_iff.mpr ⟨object, hobject, hlookup⟩)
    obtain ⟨original, horiginal, hlookup'⟩ := Tree.shape?_eq_some_iff.mp hshape
    have hslots := (hc x y hxy).slots
    rw [Tree.slots_of_object horiginal hlookup', Tree.slots_of_object hobject hlookup] at hslots
    obtain ⟨-, hchecks⟩ :=
      (w.walked.complete x ((w.walked.mem_iff x).mpr hx)).object original shape horiginal hlookup'
    constructor
    · exact WalkInput.checkDeclared_eq_ok.mpr fun _ => honly object shape hobject hlookup
    · intro field hfield
      have hall := List.forall₂_map_right_iff.mp (List.forall₂_map_left_iff.mp hslots)
      exact checkField_of_alike hc (List.forall₂_same.mp hall field hfield) (hchecks field hfield)

/-- A tree that looks like one that was walked is walked to its end, if it declares all fields of
what it reaches and every such node looks like a registered one. -/
theorem Trace.walk_ok (w : Trace input) (hr : input.registry.Valid)
    (hc : Tree.Corresponding input.tree other input.registry rel)
    (hroot : Tree.Alike rel input.tree.root other.root)
    (hreachable : ∀ y, other.Reachable y →
      other.OnlyDeclared input.registry y ∧ ∃ x, rel x y ∧ w.HasNode x) :
    ∃ w' : Trace (input.on other), (input.on other).walk = .ok (w'.module, w'.postOrder) := by
  have hleads : (input.on other).Leads other.root := leads_of_alike hc hroot w.walked.root
  have hpasses : ∀ y, other.InUse input.registry y → (input.on other).Passes y := by
    intro y hy
    obtain ⟨honly, x, hxy, hx⟩ := hreachable y hy.reachable
    exact w.passes hc hxy hx honly
  obtain ⟨⟨m, postOrder⟩, hwalk⟩ : ∃ r, (input.on other).walk = .ok r :=
    WalkInput.walk_ok hr hleads hpasses
  obtain ⟨w', rfl, rfl⟩ : ∃ w' : Trace (input.on other), w'.module = m ∧ w'.postOrder = postOrder :=
    WalkInput.exists_trace hr hwalk
  exact ⟨w', hwalk⟩

/-! ### Twins

Two traces side by side. The relation is not a function either way: the same node may be met in the
one walk where the other meets several, and which of these happens is left to the lemmas that need
to know. -/

/-- Two walks of trees without cycles that look the same from the root on. -/
structure Twins (w : Trace input) (w' : Trace (input.on other)) (rel : NodeId → NodeId → Prop) :
    Prop where
  corresponding : Tree.Corresponding input.tree other input.registry rel
  root : Tree.Alike rel input.tree.root other.root
  ranking : ∃ rank, w.module.Ranking input.tree input.registry rank
  ranking' : ∃ rank, w'.module.Ranking other input.registry rank

namespace Twins

variable {w : Trace input} {w' : Trace (input.on other)} (h : Twins w w' rel)
include h

/-- Both walks come first to what comes first in the unfolded trees. -/
theorem firsts : ∃ values others, List.Forall₂ (Tree.Alike rel) values others ∧
    w.log.eraseDups = values.eraseDups ∧ w'.log.eraseDups = others.eraseDups := by
  obtain ⟨rank, hranking⟩ := h.ranking
  obtain ⟨rank', hranking'⟩ := h.ranking'
  exact ⟨_, _, h.corresponding.preorder (input.tree.size + other.size) h.root,
    Trace.eraseDups_log hranking (Nat.le_add_right _ _),
    Trace.eraseDups_log hranking' (Nat.le_add_left _ _)⟩

/-- Selections of both logs start from corresponding ones. The two lists may have repetitions in
different places, so they are compared only up to first occurrences. -/
theorem nodes {f g : Value → Option NodeId}
    (hfg : ∀ left right, Tree.Alike rel left right → Option.Rel rel (f left) (g right)) :
    ∃ xs ys, List.Forall₂ rel xs ys ∧ (w.log.filterMap f).eraseDups = xs.eraseDups ∧
      (w'.log.filterMap g).eraseDups = ys.eraseDups := by
  obtain ⟨values, others, halike, hlog, hlog'⟩ := h.firsts
  exact ⟨values.filterMap f, others.filterMap g,
    List.rel_filterMap (fun left right hlr => hfg left right hlr) halike,
    Firsts.eraseDups_filterMap_congr hlog f, Firsts.eraseDups_filterMap_congr hlog' g⟩

theorem eraseDups_eq {α : Type} [DecidableEq α] {f g : Value → Option α}
    (hfg : ∀ left right, Tree.Alike rel left right → g right = f left) :
    (w'.log.filterMap g).eraseDups = (w.log.filterMap f).eraseDups := by
  obtain ⟨values, others, halike, hlog, hlog'⟩ := h.firsts
  rw [Firsts.eraseDups_filterMap_congr hlog f, Firsts.eraseDups_filterMap_congr hlog' g]
  have heq : List.Forall₂ (· = ·) (values.filterMap f) (others.filterMap g) :=
    List.rel_filterMap (fun left right hlr => by
      rw [hfg left right hlr]
      cases f left with
      | none => exact .none
      | some a => exact .some rfl) halike
  rw [List.forall₂_eq_eq_eq] at heq
  rw [heq]

theorem shapes_eq : w'.shapes = w.shapes :=
  h.eraseDups_eq fun _ _ => shapeOf?_of_alike h.corresponding

/-- Every node of the one walk corresponds to one of the other. -/
theorem exists_right {x : NodeId} (hx : w.HasNode x) : ∃ y, w'.HasNode y ∧ rel x y := by
  obtain ⟨values, others, halike, hlog, hlog'⟩ := h.firsts
  obtain ⟨value, hvalue, hnode⟩ := w.exists_mem_log hx
  rw [← List.mem_eraseDups, hlog, List.mem_eraseDups] at hvalue
  obtain ⟨right, hright, hlr⟩ := exists_right_of_forall₂ halike hvalue
  obtain ⟨y, hy, hxy⟩ := hlr.node hnode
  rw [← List.mem_eraseDups, ← hlog', List.mem_eraseDups] at hright
  exact ⟨y, w'.hasNode_of_mem_log hright hy, hxy⟩

/-- A property that goes over to corresponding values holds no more often on the one side, if
corresponding nodes are different where the nodes are. Then the nodes that the one walk opened have
different counterparts among those that the other one opened. -/
theorem countP_le {p q : Value → Bool}
    (hpq : ∀ left right, Tree.Alike rel left right → p left = true → q right = true)
    (hunique : ∀ x x' y, rel x y → rel x' y → x = x') : w.log.countP p ≤ w'.log.countP q := by
  have hlist : ∀ {values others : List Value}, List.Forall₂ (Tree.Alike rel) values others →
      values.countP p ≤ others.countP q := by
    intro values others hall
    induction hall with
    | nil => exact Nat.le_refl 0
    | @cons left right values others hhead _ ih =>
        rw [List.countP_cons, List.countP_cons]
        by_cases hp : p left = true
        · rw [if_pos hp, if_pos (hpq left right hhead hp)]
          exact Nat.succ_le_succ ih
        · rw [if_neg hp, Nat.add_zero]
          exact Nat.le_trans ih (Nat.le_add_right _ _)
  -- every opened node has a node of the other side to itself
  obtain ⟨copies, hcopies⟩ := exists_forall₂ fun x hx => h.exists_right (w.mem_opened.mp hx)
  have hnodup : copies.Nodup := by
    have hopened := w.nodup_opened
    clear hlist
    generalize w.opened = opened at hcopies hopened
    induction hcopies with
    | nil => exact List.nodup_nil
    | @cons x y opened copies hxy hrest ih =>
        obtain ⟨hnew, hopened⟩ := List.nodup_cons.mp hopened
        refine List.nodup_cons.mpr ⟨fun hy => ?_, ih hopened⟩
        obtain ⟨x', hx', hrel⟩ := exists_left_of_forall₂ hrest hy
        exact hnew (hunique x x' y hxy.2 hrel.2 ▸ hx')
  have hsub : List.Subperm copies w'.opened := hnodup.subperm fun y hy => by
    obtain ⟨x, -, hxy⟩ := exists_left_of_forall₂ hcopies hy
    exact w'.mem_opened.mpr hxy.1
  have hslots : List.Forall₂ (Tree.Alike rel) (w.opened.flatMap (input.tree.slots input.registry))
      (copies.flatMap (other.slots input.registry)) :=
    List.rel_flatMap hcopies fun x y hxy => (h.corresponding x y hxy.2).slots
  rw [w.countP_log, w'.countP_log]
  exact Nat.add_le_add (hlist (.cons h.root .nil))
    (Nat.le_trans (hlist hslots) (countP_flatMap_le hsub _ q))

/-- Selections of nodes hold a node no more often than the one that corresponds to it. -/
theorem count_le {f g : Value → Option NodeId}
    (hfg : ∀ left right, Tree.Alike rel left right → Option.Rel rel (f left) (g right))
    (hunique : ∀ x x' y, rel x y → rel x' y → x = x') {x y : NodeId}
    (honly : ∀ y', rel x y' → y' = y) :
    (w.log.filterMap f).count x ≤ (w'.log.filterMap g).count y := by
  rw [List.count_filterMap, List.count_filterMap]
  refine h.countP_le (fun left right hlr hleft => ?_) hunique
  obtain ⟨y', hy', hrel⟩ := exists_of_rel_some (hfg left right hlr) (by simpa using hleft)
  simp [hy', honly y' hrel]

theorem flip : @Twins (input.on other) input.tree w' w (flip rel) where
  corresponding x y hxy := (h.corresponding y x hxy).flip
  root := h.root.flip
  ranking := h.ranking'
  ranking' := h.ranking

/-- Where nodes correspond one to one, selections hold corresponding ones equally often. -/
theorem count_eq {f g : Value → Option NodeId}
    (hfg : ∀ left right, Tree.Alike rel left right → Option.Rel rel (f left) (g right))
    (hleft : ∀ x x' y, rel x y → rel x' y → x = x') (hright : ∀ x y y', rel x y → rel x y' → y = y')
    {x y : NodeId} (hxy : rel x y) :
    (w.log.filterMap f).count x = (w'.log.filterMap g).count y := by
  refine Nat.le_antisymm (h.count_le hfg hleft fun y' hy' => hright x y' y hy' hxy) ?_
  exact h.flip.count_le (fun left right hlr => rel_flip (hfg right left hlr.flip))
    (fun y y' x hy hy' => hright x y y' hy hy') fun x' hx' => hleft x' x y hx' hxy

/-- Where nodes correspond one to one, every text is met equally often. -/
theorem count_string_eq (hleft : ∀ x x' y, rel x y → rel x' y → x = x')
    (hright : ∀ x y y', rel x y → rel x y' → y = y') (s : String) :
    (w.log.filterMap Value.string?).count s = (w'.log.filterMap Value.string?).count s := by
  rw [List.count_filterMap, List.count_filterMap]
  -- One inequality and the same one for the walks the other way round.
  refine Nat.le_antisymm ?_ ?_
  · exact h.countP_le (fun _ _ hlr hp => by rwa [string?_of_alike hlr]) hleft
  · exact h.flip.countP_le (fun _ _ hlr hp => by rwa [string?_of_alike hlr])
      fun y y' x hy hy' => hright x y y' hy hy'

end Twins

end Module

end SyntaxPack
