import SyntaxPack.Proofs.Encode.Trace
import SyntaxPack.Proofs.Encode.Uses
/-!
# SyntaxPack.Proofs.Encode.Deduped

What deduplication leaves of a walk.

A class is merged into its first member unless it is used too rarely (`Thinned`). If classes
are merged from their second use on, as every class of several members has, the first member
of a class survives for all of it (`Deduped`). First means left first. Since members of a
class are not below one another, the member that is left first is also opened first, so what
survives keeps the order in which classes are met.

The development follows the loops of deduplication from the inside out:

* `Merging.mergeNode`: two members of a class are merged in the table of their kind.
* `Merging.mergeAll`: the members of a class are merged into its first one, one after another.
* `Merging.mergeClass`: this happens if the class is used often enough, and nothing otherwise.
* `Grouped.mergedSome`: classes are merged one after another, each without touching the others.

What a state of these loops is compared with is always the module that the walk left: `Merging`
says that names and the order of tables have not changed since, and that a node is represented by
one of its own class.
-/

namespace SyntaxPack

namespace Module

variable {tree : Tree} {registry : Registry} {shapes : List ShapeId} {m m' m'' : Module}
  {rank : NodeId → Nat} {source target id y : NodeId} {shape : ShapeId} {classes : NodeClasses}

/-! ### Merging two nodes

Merging sets a link and moves hits. Names stay, also those of merged entries, so what is in a table
and in what order can still be read off the walk. -/

/-- Tables with the same names in the same order. Hits and links may differ, except for strings,
which are never merged. -/
structure SameNames (m m' : Module) : Prop where
  strings : m'.strings = m.strings
  arrays : m'.arrays.names = m.arrays.names
  shapes : m'.objects.shapes = m.objects.shapes
  objects : ∀ shape, (m'.objects.table? shape).map Table.names = (m.objects.table? shape).map Table.names

theorem SameNames.refl (m : Module) : SameNames m m := ⟨rfl, rfl, rfl, fun _ => rfl⟩

theorem SameNames.trans (h : SameNames m m') (h' : SameNames m' m'') : SameNames m m'' :=
  ⟨h'.strings.trans h.strings, h'.arrays.trans h.arrays, h'.shapes.trans h.shapes,
    fun shape => (h'.objects shape).trans (h.objects shape)⟩

theorem sameNames_dedupeArray (hf : Filled tree registry shapes m)
    (h : m.dedupeArray source target = .ok m') : SameNames m m' := by
  obtain ⟨arrays, harrays, h₁⟩ := bind_eq_ok.mp h
  obtain rfl := Except.ok.inj h₁
  exact ⟨rfl, (hf.arrays.merged harrays).2.names, rfl, fun _ => rfl⟩

theorem sameNames_dedupeObject (hf : Filled tree registry shapes m)
    (hsource : tree.shape? registry source = some shape) (hnode : m.HasNode tree registry source)
    (h : m.dedupeObject registry shape source target = .ok m') : SameNames m m' := by
  obtain ⟨objects, t, t', rfl, hobjects, ht, -, hm, hu⟩ := hf.dedupeObject_eq_ok hsource hnode h
  refine ⟨rfl, rfl, ?_, names_of_merged ht hm hu⟩
  rw [ObjectTables.shapes_update hobjects, ht, Option.isSome_some, if_pos rfl]

/-! ### Merging a class

The members of a class are stored in reverse, so the first one is the last of the list. It is the
one that was left first by the walk. -/

/-- The modules in which merging has got to some class. -/
structure Merging (tree : Tree) (registry : Registry) (shapes : List ShapeId) (rank : NodeId → Nat)
    (m m' : Module) : Prop extends MergedFrom tree registry shapes rank m m' where
  sameNames : SameNames m m'

/-- The class of all nodes of a number, with what merging needs to know of it: its members are in
the tables, of one kind, and no other node has their number. -/
structure IsClass (tree : Tree) (registry : Registry) (m : Module) (rank : NodeId → Nat)
    (c : NodeClass) : Prop where
  nodup : c.members.Nodup
  keyOf_eq : ∀ x ∈ c.members, m.keyOf tree registry rank x = some c.key
  hasNode : ∀ x ∈ c.members, m.HasNode tree registry x
  rank_eq : ∀ x ∈ c.members, ∀ y ∈ c.members, rank x = rank y
  mem_of_rank_eq : ∀ x ∈ c.members, ∀ y, m.HasNode tree registry y → rank y = rank x → y ∈ c.members

section Members

variable {c : NodeClass} (hc : IsClass tree registry m rank c)
include hc

/-- Merging a member of a class into another one redirects what the one represented to the other. -/
theorem Merging.mergeNode (h : Merging tree registry shapes rank m m')
    (hsource : source ∈ c.members) (htarget : target ∈ c.members)
    (hrun : Module.mergeNode registry c.key.shape? m' source target = .ok m'') :
    Merging tree registry shapes rank m m'' ∧ Redirects tree registry m' m'' source target := by
  obtain ⟨hmerged, hredirects⟩ := h.toMergedFrom.mergeNode (hc.keyOf_eq source hsource)
    (hc.keyOf_eq target htarget) (hc.hasNode source hsource) (hc.hasNode target htarget)
    (hc.rank_eq source hsource target htarget) hrun
  refine ⟨⟨hmerged, h.sameNames.trans ?_⟩, hredirects⟩
  have hkind := kind_of_keyOf (hc.keyOf_eq source hsource)
  cases hshape : c.key.shape? with
  | some shape =>
      simp only [hshape] at hkind hrun
      exact sameNames_dedupeObject h.filled hkind
        ((h.hasNode_iff source).mpr (hc.hasNode source hsource)) hrun
  | none =>
      simp only [hshape] at hrun
      exact sameNames_dedupeArray h.filled hrun

section Alone

variable (hself : ∀ x ∈ c.members, m'.repOf tree registry x = some x)
include hself

/-- A node outside of a class does not survive as a member of it. -/
theorem Merging.mem_of_repOf (h : Merging tree registry shapes rank m m') (hsource : source ∈ c.members)
    (hid : m.HasNode tree registry id) (hrep : m'.repOf tree registry id = some source) :
    id = source := by
  obtain ⟨y, hy, -, hrank⟩ := h.rep id hid
  obtain rfl := Option.some.inj (hrep.symm.trans hy)
  have hmem := hc.mem_of_rank_eq source hsource id hid hrank.symm
  exact Option.some.inj ((hself id hmem).symm.trans hrep)

/-- Some members of a class are merged into one of it, and nothing else is changed since: the target
represents those that are done, and every other node is represented as before. -/
structure MergedInto (tree : Tree) (registry : Registry) (shapes : List ShapeId) (rank : NodeId → Nat)
    (m m' : Module) (target : NodeId) (done : List NodeId) (k : Module) : Prop
    extends Merging tree registry shapes rank m k where
  repOf_eq : ∀ x, m.HasNode tree registry x →
    k.repOf tree registry x = if x ∈ done then some target else m'.repOf tree registry x

/-- One more member is merged. -/
theorem MergedInto.append {done : List NodeId} {k k' : Module}
    (hk : MergedInto tree registry shapes rank m m' target done k)
    (h : Merging tree registry shapes rank m m') (hsource : source ∈ c.members)
    (htarget : target ∈ c.members) (hsourceNew : source ∉ done) (htargetNew : target ∉ done)
    (hne : target ≠ source) (hmerged : Merging tree registry shapes rank m k')
    (hredirects : Redirects tree registry k k' source target) :
    MergedInto tree registry shapes rank m m' target (done ++ [source]) k' := by
  obtain ⟨a, b, ha, hb, hredirect⟩ := hredirects
  rw [hk.repOf_eq source (hc.hasNode source hsource), if_neg hsourceNew, hself source hsource] at ha
  rw [hk.repOf_eq target (hc.hasNode target htarget), if_neg htargetNew, hself target htarget] at hb
  obtain rfl := Option.some.inj ha
  obtain rfl := Option.some.inj hb
  refine ⟨hmerged, fun x hx => ?_⟩
  rw [hredirect, hk.repOf_eq x hx]
  -- A node that is done is with the target already; of the others only the new source moves.
  by_cases hdone : x ∈ done
  · rw [if_pos hdone, if_pos (List.mem_append_left _ hdone),
      if_neg fun heq => hne (Option.some.inj heq)]
  · rw [if_neg hdone]
    by_cases heq : x = source
    · rw [heq, hself source hsource, if_pos rfl, if_pos (by simp)]
    · rw [if_neg fun hrep => heq (h.mem_of_repOf hc hself hsource hx hrep), if_neg (by simp [hdone, heq])]

end Alone

variable {state state' : Nat × Module}
  (hself : ∀ x ∈ c.members, state.2.repOf tree registry x = some x)
include hself

/-- Different members of a class are merged into another one, one after another. The induction is on
the members that are done. -/
theorem Merging.mergeAll {sources : List NodeId}
    (h : Merging tree registry shapes rank m state.2) (htarget : target ∈ c.members)
    (hsources : ∀ source ∈ sources, source ∈ c.members) (hnodup : (target :: sources).Nodup)
    (hrun : sources.foldlM (mergeMember registry c.key.shape? target) state = .ok state') :
    MergedInto tree registry shapes rank m state.2 target sources state'.2 := by
  refine foldlM_induction
    (motive := fun done k => MergedInto tree registry shapes rank m state.2 target done k.2) hrun
    ⟨h, fun x _ => by rw [if_neg List.not_mem_nil]⟩ fun done s rest b k hsplit hb hstep => ?_
  have hs : s ∈ c.members := hsources s (by rw [hsplit]; simp)
  rw [hsplit] at hnodup
  obtain ⟨htargetNew, hnodup⟩ := List.nodup_cons.mp hnodup
  obtain ⟨next, hmerge, rfl⟩ := mergeMember_eq_ok.mp hstep
  obtain ⟨hk, hredirects⟩ := hb.toMerging.mergeNode hc hs htarget hmerge
  exact hb.append hc hself h hs htarget
    (fun hdone => (List.nodup_append.mp hnodup).2.2 s hdone s List.mem_cons_self rfl)
    (fun hdone => htargetNew (List.mem_append_left _ hdone))
    (fun heq => htargetNew (by simp [heq])) hk hredirects

/-- Merging a class makes its first member survive for all of it, unless it is used too rarely. What
is not in the class is represented as before. -/
theorem Merging.mergeClass (h : Merging tree registry shapes rank m state.2) {minUses : Nat}
    (hrun : Module.mergeClass registry minUses state c = .ok state') :
    Merging tree registry shapes rank m state'.2 ∧
      (∀ x ∈ c.members, state'.2.repOf tree registry x =
        if (c.members.reverse.map (state.2.usesOf c.key.shape?)).foldr (· + ·) 0 < minUses then some x
        else c.members.getLast?) ∧
      ∀ x, m.HasNode tree registry x → x ∉ c.members →
        state'.2.repOf tree registry x = state.2.repOf tree registry x := by
  simp only [Module.mergeClass] at hrun
  split at hrun
  -- A class of at least two members: it is left alone if it is used too rarely, or merged.
  · rename_i target source sources hmembers
    have hmem : ∀ x, x ∈ target :: source :: sources ↔ x ∈ c.members := fun x => by
      rw [← hmembers, List.mem_reverse]
    have hlast : c.members.getLast? = some target := by
      rw [← List.head?_reverse, hmembers, List.head?_cons]
    have hnodup : (target :: source :: sources).Nodup := by
      rw [← hmembers]
      exact List.nodup_reverse.mpr hc.nodup
    have htarget := (hmem target).mp List.mem_cons_self
    rw [hmembers, hlast]
    split at hrun
    · rename_i hrare
      obtain rfl := Except.ok.inj hrun
      refine ⟨h, fun x hx => ?_, fun _ _ _ => rfl⟩
      rw [if_pos hrare, hself x hx]
    · rename_i hoften
      have hinto := h.mergeAll hc hself htarget
        (fun source hsource => (hmem source).mp (List.mem_cons_of_mem _ hsource)) hnodup hrun
      refine ⟨hinto.toMerging, fun x hx => ?_, fun x hx hnot => ?_⟩
      · rw [if_neg hoften, hinto.repOf_eq x (hc.hasNode x hx)]
        by_cases hsource : x ∈ source :: sources
        · rw [if_pos hsource]
        · obtain rfl : x = target := by
            simpa [hsource] using List.mem_cons.mp ((hmem x).mpr hx)
          rw [if_neg hsource, hself x hx]
      · rw [hinto.repOf_eq x hx, if_neg fun hmem' => hnot ((hmem x).mp (List.mem_cons_of_mem _ hmem'))]
  · rename_i hfew
    obtain rfl := Except.ok.inj hrun
    refine ⟨h, fun x hx => ?_, fun _ _ _ => rfl⟩
    -- a member that is alone is the first one
    have hsingle : c.members = [x] := by
      rcases hreverse : c.members.reverse with _ | ⟨target, _ | ⟨source, sources⟩⟩
      · rw [List.reverse_eq_nil_iff] at hreverse
        simp [hreverse] at hx
      · rw [List.reverse_eq_iff] at hreverse
        rw [hreverse] at hx ⊢
        simpa [eq_comm] using hx
      · exact absurd hreverse (hfew target source sources)
    rw [hself x hx, hsingle, List.getLast?_singleton, ite_self]

end Members

/-! ### Merging all classes

Classes are disjoint and cover all nodes (`Grouped`), so merging one of them is no concern of the
others, and what all merges did can be said of each class by itself. -/

theorem NodeClasses.mem_insert {key : ClassKey} {node : NodeId} {c : NodeClass}
    (h : c ∈ classes.insert key node) : c ∈ classes ∨ c.members = [node] ∨
      ∃ old ∈ classes, c.members = node :: old.members := by
  induction classes with
  | nil =>
      obtain rfl : c = ⟨key, [node]⟩ := by simpa [NodeClasses.insert] using h
      exact Or.inr (Or.inl rfl)
  | cons d classes ih =>
      unfold NodeClasses.insert at h
      split at h
      · rcases List.mem_cons.mp h with rfl | h
        · exact Or.inr (Or.inr ⟨d, List.mem_cons_self, rfl⟩)
        · exact Or.inl (List.mem_cons_of_mem d h)
      · rcases List.mem_cons.mp h with rfl | h
        · exact Or.inl List.mem_cons_self
        · rcases ih h with hmem | hnew | ⟨old, hold, hmembers⟩
          · exact Or.inl (List.mem_cons_of_mem d hmem)
          · exact Or.inr (Or.inl hnew)
          · exact Or.inr (Or.inr ⟨old, List.mem_cons_of_mem d hold, hmembers⟩)

/-- Classes have their members in the order in which these were classified, which is that of the
walk. -/
theorem members_sublist {postOrder : List NodeId}
    (h : m.classify tree registry postOrder = .ok classes) :
    ∀ c ∈ classes, c.members.reverse.Sublist postOrder := by
  refine foldlM_induction
    (motive := fun done classes => ∀ c ∈ classes, c.members.reverse.Sublist done) h
    (fun c hc => absurd hc List.not_mem_nil) fun done id rest b c hsplit hb hstep => ?_
  obtain ⟨key, -, h₁⟩ := bind_eq_ok.mp hstep
  obtain rfl : b.insert key id = c := by simpa [pure, Except.pure] using h₁
  intro d hd
  rcases NodeClasses.mem_insert hd with hmem | hmembers | ⟨old, hold, hmembers⟩
  · exact (hb d hmem).trans (List.sublist_append_left done [id])
  · rw [hmembers]
    exact List.sublist_append_right done [id]
  · rw [hmembers, List.reverse_cons]
    exact (hb old hold).append (List.Sublist.refl [id])

theorem mem_members_of_classOf? {i : Nat} {c : NodeClass} (hc : classes[i]? = some c)
    (h : classes.classOf? id = some i) : id ∈ c.members := by
  obtain ⟨hlt, hmem, -⟩ := List.findIdx?_eq_some_iff_getElem.mp h
  obtain ⟨hlt', rfl⟩ := List.getElem?_eq_some_iff.mp hc
  simpa using hmem

/-- Positions in a list without repetitions grow along a part of it. -/
theorem idxOf_le_of_sublist {l rest : List NodeId} (hnodup : l.Nodup) (h : (y :: rest).Sublist l)
    {z : NodeId} (hz : z ∈ y :: rest) : l.idxOf y ≤ l.idxOf z := by
  have hpairwise : l.Pairwise fun a b => l.idxOf a < l.idxOf b := by
    refine List.pairwise_iff_getElem.mpr fun i j hi hj hij => ?_
    rwa [hnodup.idxOf_getElem i hi, hnodup.idxOf_getElem j hj]
  rcases List.mem_cons.mp hz with rfl | hz
  · exact Nat.le_refl _
  · exact Nat.le_of_lt (List.rel_of_pairwise_cons (hpairwise.sublist h) hz)

variable {input : WalkInput} {minUses : Nat}

/-- Of two different items of a list, the sum over the list has both. With this a class that is used
less than twice has no two members. -/
theorem add_le_foldr_map {f : NodeId → Nat} {l : List NodeId} {x y : NodeId} (hx : x ∈ l) (hy : y ∈ l)
    (hne : x ≠ y) : f x + f y ≤ (l.map f).foldr (· + ·) 0 := by
  have hone : ∀ {z : NodeId} {l : List NodeId}, z ∈ l → f z ≤ (l.map f).foldr (· + ·) 0 := by
    intro z l hz
    induction l with
    | nil => simp at hz
    | cons w l ih =>
        rw [List.map_cons, List.foldr_cons]
        rcases List.mem_cons.mp hz with rfl | hz
        · omega
        · have := ih hz
          omega
  induction l with
  | nil => simp at hx
  | cons w l ih =>
      rw [List.map_cons, List.foldr_cons]
      rcases List.mem_cons.mp hx with rfl | hxl <;> rcases List.mem_cons.mp hy with rfl | hyl
      · exact absurd rfl hne
      · have := hone hyl
        omega
      · have := hone hxl
        omega
      · have := ih hxl hyl
        omega

theorem Trace.merging_self (w : Trace input) :
    Merging input.tree input.registry w.shapes rank w.module w.module where
  toMergedFrom := mergedFrom_refl w.filled w.walked.gathered.building w.walked.gathered.unmerged
  sameNames := .refl w.module

/-- How often a walk met a reference to a node. -/
def Trace.met (w : Trace input) (x : NodeId) : Nat := w.log.countP fun value => value.node? = some x

theorem Trace.met_pos (w : Trace input) {x : NodeId} (hx : w.HasNode x) : 0 < w.met x := by
  obtain ⟨value, hvalue, hid⟩ := w.exists_mem_log hx
  exact List.countP_pos_iff.mpr ⟨value, hvalue, decide_eq_true hid⟩

/-- A walk and the classes of its nodes, as classifying the nodes in the order of the walk gives
them. -/
structure Grouped (w : Trace input) where
  /-- The classes of the nodes. -/
  classes : NodeClasses
  classified : Classified w.module input.tree input.registry w.postOrder classes
  sublist : ∀ c ∈ classes, c.members.reverse.Sublist w.postOrder

namespace Grouped

variable {w : Trace input} (g : Grouped w)

theorem classOf?_eq {i : Nat} {c : NodeClass} {x : NodeId} (hi : g.classes[i]? = some c)
    (hx : x ∈ c.members) : g.classes.classOf? x = some i :=
  g.classified.classOf?_eq i c x hi hx

theorem isClass {c : NodeClass} (hc : c ∈ g.classes) :
    IsClass input.tree input.registry w.module g.classes.number c := by
  obtain ⟨i, hi⟩ := List.getElem?_of_mem hc
  refine ⟨?_, fun x hx => ?_, fun x hx => ?_, fun x hx y hy => ?_, fun x hx y hy heq => ?_⟩
  · exact List.nodup_reverse.mp (w.walked.nodup.sublist (g.sublist c hc))
  · rw [g.classified.keyOf_eq x i (g.classOf?_eq hi hx), NodeClasses.keys, List.getElem?_map, hi,
      Option.map_some]
  · exact (w.walked.mem_iff x).mp ((g.classified.isSome_iff x).mp (by simp [g.classOf?_eq hi hx]))
  · rw [NodeClasses.number, NodeClasses.number, g.classOf?_eq hi hx, g.classOf?_eq hi hy]
  · obtain ⟨j, hj⟩ := Option.isSome_iff_exists.mp
      ((g.classified.isSome_iff y).mpr ((w.walked.mem_iff y).mpr hy))
    obtain rfl : j = i := by simpa [NodeClasses.number, hj, g.classOf?_eq hi hx] using heq
    exact mem_members_of_classOf? hi hj

/-- Every node is in a class. -/
theorem exists_class {x : NodeId} (hx : w.HasNode x) : ∃ c ∈ g.classes, x ∈ c.members := by
  obtain ⟨i, hi⟩ := Option.isSome_iff_exists.mp
    ((g.classified.isSome_iff x).mpr ((w.walked.mem_iff x).mpr hx))
  have hlt := NodeClasses.classOf?_lt hi
  rw [NodeClasses.keys, List.length_map] at hlt
  have hget := List.getElem?_eq_getElem hlt
  exact ⟨_, List.getElem_mem hlt, mem_members_of_classOf? hget hi⟩

/-- A class has no member of a class before it. -/
theorem not_mem_of_split {done rest : NodeClasses} {c d : NodeClass} {x : NodeId}
    (hsplit : g.classes = done ++ c :: rest) (hd : d ∈ done) (hx : x ∈ d.members) : x ∉ c.members := by
  intro hmem
  obtain ⟨j, hj, hget⟩ := List.getElem_of_mem hd
  have hj' : g.classes[j]? = some d := by
    rw [hsplit, List.getElem?_append_left hj, List.getElem?_eq_getElem hj, hget]
  have hi : g.classes[done.length]? = some c := by simp [hsplit]
  have hone := (g.classOf?_eq hj' hx).symm.trans (g.classOf?_eq hi hmem)
  exact Nat.ne_of_lt hj (Option.some.inj hone)

theorem shape?_key {c : NodeClass} (hc : c ∈ g.classes) {x : NodeId} (hx : x ∈ c.members) :
    c.key.shape? = input.tree.shape? input.registry x := by
  have hkind := kind_of_keyOf ((g.isClass hc).keyOf_eq x hx)
  cases hkey : c.key.shape? with
  | some shape => simpa only [hkey, eq_comm] using hkind
  | none =>
      simp only [hkey] at hkind
      rw [Tree.shape?_eq_none_of_array hkind]

/-- While a class is not merged, its members have as many uses as they were met: the hits of a node
are the references to all that it represents, and it represents only itself. -/
theorem usesOf_eq_met {k : Module} {c : NodeClass} (hc : c ∈ g.classes)
    (hk : Merging input.tree input.registry w.shapes g.classes.number w.module k)
    (ht : Tallied input w.log k)
    (hself : ∀ x ∈ c.members, k.repOf input.tree input.registry x = some x) {x : NodeId}
    (hx : x ∈ c.members) : k.usesOf (input.tree.shape? input.registry x) x = w.met x := by
  have hclass := g.isClass hc
  have hholds : ∀ value ∈ w.log, k.Holds input.tree input.registry value := fun value hvalue =>
    hk.grows.holds (w.holds_of_mem_log hvalue)
  rw [ht.usesOf_eq hk.filled hholds (hself x hx), referencesTo, Trace.met]
  refine List.countP_congr fun value hvalue => ?_
  rw [decide_eq_true_eq, decide_eq_true_eq]
  constructor
  · intro hrep
    obtain ⟨y, hy, hrep⟩ := Option.bind_eq_some_iff.mp hrep
    have hnode := w.hasNode_of_mem_log hvalue hy
    obtain ⟨z, hz, -, hnumber⟩ := hk.rep y hnode
    obtain rfl := Option.some.inj (hrep.symm.trans hz)
    -- What is represented by the member has its number, so it is of the class, and stands for
    -- itself.
    have hyc := hclass.mem_of_rank_eq x hx y hnode hnumber.symm
    rw [hy, Option.some.inj (hrep.symm.trans (hself y hyc))]
  · intro hid
    rw [hid, Option.bind_some, hself x hx]

end Grouped

/-- A walk and what merging made of its classes: one that was met often enough has its first
member survive for all of it, and else every member survives as itself. -/
structure Thinned (w : Trace input) (minUses : Nat) extends Grouped w where
  /-- The tables after merging. -/
  merged : Module
  merging : Merging input.tree input.registry w.shapes classes.number w.module merged
  tallied : Tallied input w.log merged
  repOf_eq : ∀ c ∈ classes, ∀ x ∈ c.members, merged.repOf input.tree input.registry x =
    if (c.members.reverse.map w.met).foldr (· + ·) 0 < minUses then some x else c.members.getLast?

/-- Some classes are merged, one after another. What is in none of them is as the walk left it. -/
structure Grouped.MergedSome {w : Trace input} (g : Grouped w) (minUses : Nat) (done : NodeClasses)
    (k : Module) : Prop where
  merging : Merging input.tree input.registry w.shapes g.classes.number w.module k
  tallied : Tallied input w.log k
  repOf_eq : ∀ c ∈ done, ∀ x ∈ c.members, k.repOf input.tree input.registry x =
    if (c.members.reverse.map w.met).foldr (· + ·) 0 < minUses then some x else c.members.getLast?
  unmerged : ∀ x, w.HasNode x → (∀ c ∈ done, x ∉ c.members) →
    k.repOf input.tree input.registry x = some x

namespace Grouped.MergedSome

variable {w : Trace input} {g : Grouped w} {done rest : NodeClasses} {state state' : Nat × Module}
  {c : NodeClass} (h : g.MergedSome minUses done state.2) (hsplit : g.classes = done ++ c :: rest)
include h hsplit

/-- The members of the next class survive as themselves. -/
theorem repOf_self : ∀ x ∈ c.members, state.2.repOf input.tree input.registry x = some x := by
  intro x hx
  have hc : c ∈ g.classes := by simp [hsplit]
  exact h.unmerged x ((g.isClass hc).hasNode x hx) fun d hd hmem =>
    g.not_mem_of_split hsplit hd hmem hx

theorem mergeClass (hstep : Module.mergeClass input.registry minUses state c = .ok state') :
    g.MergedSome minUses (done ++ [c]) state'.2 := by
  have hc : c ∈ g.classes := by simp [hsplit]
  have hself := h.repOf_self hsplit
  obtain ⟨hk, hmerged, hothers⟩ := h.merging.mergeClass (g.isClass hc) hself hstep
  refine ⟨hk, h.tallied.mergeClass hstep, fun d hd x hx => ?_, fun x hx hnot => ?_⟩
  · rcases List.mem_append.mp hd with hd | hd
    · have hd' : d ∈ g.classes := by simp [hsplit, hd]
      -- Classes have no member in common, so those that are done stay as they are.
      rw [hothers x ((g.isClass hd').hasNode x hx) (g.not_mem_of_split hsplit hd hx),
        h.repOf_eq d hd x hx]
    · obtain rfl := List.mem_singleton.mp hd
      have huses : d.members.reverse.map (state.2.usesOf d.key.shape?) = d.members.reverse.map w.met :=
        List.map_congr_left fun y hy => by
          rw [g.shape?_key hc (List.mem_reverse.mp hy),
            g.usesOf_eq_met hc h.merging h.tallied hself (List.mem_reverse.mp hy)]
      rw [hmerged x hx, huses]
  · rw [hothers x hx (hnot c (by simp)),
      h.unmerged x hx fun d hd => hnot d (List.mem_append_left _ hd)]

end Grouped.MergedSome

/-- Merging a part of the classes, from the first one on, does to each of them what it says. Nothing
has been done to the first class when it is reached, nor to any later one. -/
theorem Grouped.mergedSome {w : Trace input} (g : Grouped w) {done rest : NodeClasses}
    {state : Nat × Module} (hsplit : g.classes = done ++ rest)
    (h : done.foldlM (Module.mergeClass input.registry minUses) (0, w.module) = .ok state) :
    g.MergedSome minUses done state.2 := by
  refine foldlM_induction (motive := fun done state => g.MergedSome minUses done state.2) h
    ⟨w.merging_self, w.logged.tallied, fun c hc => absurd hc List.not_mem_nil,
      fun x hx _ => w.repOf_module hx⟩ ?_
  intro before c after b k hdone hb hstep
  have hbefore : g.classes = before ++ c :: (after ++ rest) := by
    rw [hsplit, hdone, List.append_assoc, List.cons_append]
  exact hb.mergeClass hbefore hstep

theorem Trace.exists_grouped (w : Trace input)
    (h : w.module.classify input.tree input.registry w.postOrder = .ok classes) :
    ∃ g : Grouped w, g.classes = classes :=
  ⟨⟨classes, classified_of_classify w.walked.nodup h, members_sublist h⟩, rfl⟩

/-- Deduplication that succeeds leaves a walk and merged classes. -/
theorem Trace.exists_thinned (w : Trace input) {result : Nat × Module}
    (h : w.module.dedupe input.tree input.registry w.postOrder minUses = .ok result) :
    ∃ d : Thinned w minUses, d.merged = result.2 := by
  obtain ⟨classes, hclasses, h₁⟩ := bind_eq_ok.mp h
  obtain ⟨g, rfl⟩ := w.exists_grouped hclasses
  have hall := g.mergedSome (List.append_nil _).symm (mapError_eq_ok.mp h₁)
  exact ⟨⟨g, result.2, hall.merging, hall.tallied, hall.repOf_eq⟩, rfl⟩

/-- Nodes of one class that both survive are used too rarely to be merged. -/
theorem Thinned.usesOf_add_lt {w : Trace input} (d : Thinned w minUses) {x y : NodeId}
    (hx : w.HasNode x) (hy : w.HasNode y) (hnumber : d.classes.number x = d.classes.number y)
    (hne : x ≠ y) (hselfx : d.merged.repOf input.tree input.registry x = some x)
    (hselfy : d.merged.repOf input.tree input.registry y = some y) :
    d.merged.usesOf (input.tree.shape? input.registry x) x +
      d.merged.usesOf (input.tree.shape? input.registry y) y < minUses := by
  obtain ⟨c, hc, hxc⟩ := d.exists_class hx
  have hyc := (d.isClass hc).mem_of_rank_eq x hxc y hy hnumber.symm
  by_cases hrare : (c.members.reverse.map w.met).foldr (· + ·) 0 < minUses
  · have hself : ∀ z ∈ c.members, d.merged.repOf input.tree input.registry z = some z := fun z hz => by
      rw [d.repOf_eq c hc z hz, if_pos hrare]
    rw [d.usesOf_eq_met hc d.merging d.tallied hself hxc,
      d.usesOf_eq_met hc d.merging d.tallied hself hyc]
    exact Nat.lt_of_le_of_lt
      (add_le_foldr_map (List.mem_reverse.mpr hxc) (List.mem_reverse.mpr hyc) hne) hrare
  · rw [d.repOf_eq c hc x hxc, if_neg hrare] at hselfx
    rw [d.repOf_eq c hc y hyc, if_neg hrare, hselfx] at hselfy
    exact absurd (Option.some.inj hselfy) hne

/-- A walk, and what deduplication made of it, if all classes were merged: each node is represented
by the node of its class that the walk left first. -/
structure Deduped (w : Trace input) extends Grouped w where
  /-- The tables after merging. -/
  merged : Module
  merging : Merging input.tree input.registry w.shapes classes.number w.module merged
  rep : ∀ id, w.HasNode id → ∃ y, merged.repOf input.tree input.registry id = some y ∧
    w.HasNode y ∧ classes.number y = classes.number id ∧
      ∀ z, w.HasNode z → classes.number z = classes.number id → w.rank y ≤ w.rank z

/-- If classes are merged from their second use on, all of them are. -/
theorem Thinned.exists_deduped {w : Trace input} (d : Thinned w minUses) (hminUses : minUses ≤ 2) :
    ∃ d' : Deduped w, d'.merged = d.merged := by
  have hfirst : ∀ c ∈ d.classes, ∀ x ∈ c.members,
      d.merged.repOf input.tree input.registry x = c.members.getLast? := by
    intro c hc x hx
    have hclass := d.isClass hc
    rw [d.repOf_eq c hc x hx]
    split
    · rename_i hrare
      -- several members were met at least once each
      have halone : ∀ y ∈ c.members, y = x := by
        intro y hy
        by_contra hne
        have hsum := add_le_foldr_map (f := w.met) (List.mem_reverse.mpr hy) (List.mem_reverse.mpr hx) hne
        have hposx := w.met_pos (hclass.hasNode x hx)
        have hposy := w.met_pos (hclass.hasNode y hy)
        omega
      obtain ⟨last, hlast⟩ := List.getLast?_isSome.mpr (List.ne_nil_of_mem hx) |> Option.isSome_iff_exists.mp
      rw [hlast, halone last (List.mem_of_getLast? hlast)]
    · rfl
  refine ⟨⟨d.toGrouped, d.merged, d.merging, fun id hid => ?_⟩, rfl⟩
  obtain ⟨c, hc, hmem⟩ := d.exists_class hid
  have hclass := d.isClass hc
  -- the first member is the last one in the list
  obtain ⟨y, rest, hreverse⟩ : ∃ y rest, c.members.reverse = y :: rest := by
    cases hreverse : c.members.reverse with
    | nil => simp [List.reverse_eq_nil_iff.mp hreverse] at hmem
    | cons y rest => exact ⟨y, rest, rfl⟩
  have hy : y ∈ c.members := List.mem_reverse.mp (hreverse ▸ List.mem_cons_self)
  refine ⟨y, ?_, hclass.hasNode y hy, hclass.rank_eq y hy id hmem, fun z hz heq => ?_⟩
  · rw [hfirst c hc id hmem, ← List.head?_reverse, hreverse, List.head?_cons]
  · have hzMem : z ∈ y :: rest := by
      rw [← hreverse, List.mem_reverse]
      exact hclass.mem_of_rank_eq id hmem z hz heq
    exact idxOf_le_of_sublist w.walked.nodup (hreverse ▸ d.sublist c hc) hzMem

end Module

end SyntaxPack
