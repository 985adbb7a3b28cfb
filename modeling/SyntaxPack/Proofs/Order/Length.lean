import SyntaxPack.Proofs.Encode.Census
import SyntaxPack.Proofs.Order.Resized
import SyntaxPack.Proofs.Table.Cost
/-!
# SyntaxPack.Proofs.Order.Length

Ordering tables by the number of uses makes no module longer.

Of the bytes of a module, only those of references depend on the order of its tables
(`Reordered.length_add_eq`). A reference costs what its position costs, and no later position
costs less than an earlier one; so it pays to have what is used most in front, in every table
by itself (`Reordered.sum_cost_le`).

The number of uses that a table is ordered by is the number of values in the log of the walk that
refer to the entry. The cost of all references is a sum over that same log. So the two sums to be
compared are sums over one list, sorted into classes by the table that a value belongs to, and
within a class the order by uses is a rearrangement that puts larger counts to smaller positions.

Only the varint encoding gives positions different costs. With tokens of one width all sums are
equal, and then so are the lengths.
-/

namespace SyntaxPack

open Token (allBytes)
open StreamWriter (Stored)

/-! ### Sums over parts of lists

General facts for splitting the sum over the log, first into kinds of values and then into tables.
-/

section Sums

variable {α β : Type}

/-- A sum over selected items is a sum over all items, with nothing for the others. -/
theorem sum_map_filterMap (f : α → Option β) (g : β → Nat) (l : List α) :
    ((l.filterMap f).map g).sum = (l.map fun x => (f x).elim 0 g).sum := by
  induction l with
  | nil => rfl
  | cons x l ih =>
      cases hx : f x with
      | none => simp [hx, ih]
      | some y => simp [hx, ih]

/-- A sum is no larger than another one if this holds for the items of every class. The induction
takes away one class at a time, that of the first item. -/
theorem sum_le_of_classes {γ : Type} [DecidableEq γ] (classOf : α → γ) {f g : α → Nat} {l : List α}
    (h : ∀ x ∈ l, ((l.filter (classOf · = classOf x)).map f).sum ≤
      ((l.filter (classOf · = classOf x)).map g).sum) : (l.map f).sum ≤ (l.map g).sum := by
  obtain ⟨n, hn⟩ : ∃ n, l.length ≤ n := ⟨_, Nat.le_refl _⟩
  induction n generalizing l with
  | zero =>
      rw [List.eq_nil_of_length_eq_zero (Nat.le_zero.mp hn)]
      exact Nat.le_refl _
  | succ n ih =>
      cases l with
      | nil => exact Nat.le_refl _
      | cons x l =>
          -- the class of the first item, and all others
          have hsplit := List.filter_append_perm (fun y => decide (classOf y = classOf x)) (x :: l)
          rw [← (hsplit.map f).sum_eq, ← (hsplit.map g).sum_eq, List.map_append, List.map_append,
            List.sum_append, List.sum_append]
          refine Nat.add_le_add (h x List.mem_cons_self) (ih (fun y hy => ?_) ?_)
          · obtain ⟨hmem, hother⟩ := List.mem_filter.mp hy
            have hne : ¬ classOf y = classOf x := by simpa using hother
            have hclass : ((x :: l).filter fun z => !decide (classOf z = classOf x)).filter
                (fun z => decide (classOf z = classOf y)) =
                (x :: l).filter fun z => decide (classOf z = classOf y) := by
              rw [List.filter_filter]
              refine List.filter_congr fun z _ => ?_
              by_cases hz : classOf z = classOf y
              · simp [hz, hne]
              · simp [hz]
            rw [hclass]
            exact h y hmem
          · have hshort : ((x :: l).filter fun z => !decide (classOf z = classOf x)).length ≤ l.length := by
              rw [List.filter_cons_of_neg (by simp)]
              exact List.length_filter_le _ _
            rw [List.length_cons] at hn
            omega

end Sums

namespace Module

variable {input : WalkInput} {hits : Bool} {w : Trace input} {w' : Trace (input.ordered hits)}

/-! ### Costs

What the references of a log cost: one sum for strings, one for arrays, one for each table of
objects. -/

namespace WalkInput

/-- What tells the tables of objects apart: their shapes, unless there is only one table. -/
def tableOf? (input : WalkInput) (id : NodeId) : Option ShapeId :=
  if input.config.partitionedTables then input.tree.shape? input.registry id else none

/-- The objects in the table of a given one are those of its shape. -/
theorem filter_tableOf? {id : NodeId} {shape : ShapeId} {log : List Value}
    (hshape : input.tree.shape? input.registry id = some shape) :
    (log.filterMap Value.object?).filter (input.tableOf? · = input.tableOf? id) =
      input.objectsOf shape log := by
  rw [List.filter_filterMap, objectsOf]
  refine List.filterMap_congr fun value _ => ?_
  rw [Tree.tabled?]
  simp only [tableOf?, hshape]
  cases input.config.partitionedTables <;> simp

end WalkInput

namespace Trace

/-- The cost of a log is that of its strings, its arrays and its objects. -/
theorem sum_cost (w : Trace input) (log : List Value) : (log.map w.cost).sum =
    ((log.filterMap Value.string?).map fun s => w.cost (.string s)).sum +
      ((log.filterMap Value.array?).map fun id => w.cost (.array id)).sum +
      ((log.filterMap Value.object?).map fun id => w.cost (.object id)).sum := by
  rw [sum_map_filterMap, sum_map_filterMap, sum_map_filterMap, ← List.sum_map_add, ← List.sum_map_add]
  refine congrArg List.sum (List.map_congr_left fun value _ => ?_)
  cases value <;> simp [Value.string?, Value.array?, Value.object?, cost, position?]

/-- For the objects of one table, the cost is that of their positions in the table. -/
theorem sum_cost_objectsOf {shape : ShapeId} {t : UniqueTable NodeId} (hr : input.registry.Valid)
    (ht : w.finalized.objects.table? shape = some t) {log : List Value}
    (hlog : ∀ value ∈ log, value ∈ w.log) :
    ((input.objectsOf shape log).map fun id => w.cost (.object id)).sum =
      ((input.objectsOf shape log).map fun id =>
        input.config.indexEncoding.tokenSize (t.keys.idxOf id + 1)).sum := by
  refine congrArg List.sum (List.map_congr_left fun id hid => ?_)
  obtain ⟨hmem, htable⟩ := Logged.mem_objectsOf.mp hid
  obtain ⟨own, hown, -⟩ := w.holds_of_mem_log (hlog _ hmem)
  have htogether : w.finalized.objects.Together shape own :=
    htable.imp (fun hshared => (w.located hr).partitioned.trans hshared)
      fun hshape => Option.some.inj (hshape.symm.trans hown)
  rw [cost, position?, hown, Option.bind_some, (ObjectTables.table?_congr htogether).symm.trans ht]
  rfl

end Trace

/-- The references to one table cost no more in the order of their uses, since what has more uses
stands further in front and no later position is cheaper. -/
theorem sum_tokenSize_le {κ : Type} [DecidableEq κ] (e : IndexEncoding) {log keys keys' : List κ}
    (hkeys : keys = UniqueTable.inOrder .insertion log (log.eraseDups.filter fun _ => true))
    (hkeys' : keys' = UniqueTable.inOrder .hitCountDescending log (log.eraseDups.filter fun _ => true)) :
    (log.map fun x => e.tokenSize (keys'.idxOf x + 1)).sum ≤
      (log.map fun x => e.tokenSize (keys.idxOf x + 1)).sum := by
  rw [hkeys, hkeys', List.filter_true]
  exact UniqueTable.sum_idxOf_inOrder_le
    (fun i j hij => IndexEncoding.tokenSize_le (Nat.succ_le_succ hij))
    (Firsts.nodup_eraseDups log) fun x hx => List.mem_eraseDups.mpr hx

namespace Reordered

/-- In the order of their uses, the references to the objects of one table cost least. -/
theorem sum_cost_objectsOf_le {w' : Trace (input.ordered true)} (h : Reordered w w')
    (hordering : input.config.ordering = .insertion) {shape : ShapeId} {u : UniqueTable NodeId}
    (hu : w.module.objects.table? shape = some u) :
    ((input.objectsOf shape w.log).map fun id => w'.cost (.object id)).sum ≤
      ((input.objectsOf shape w.log).map fun id => w.cost (.object id)).sum := by
  have hlimit : input.config.inlineLimit = none := by simp [EncodingConfig.inlineLimit, h.inline]
  have hlimit' : (input.ordered true).config.inlineLimit = none := hlimit
  have ht : w.finalized.objects.table? shape = some (u.finalize .insertion (keptFor none)) := by
    rw [Trace.finalized, table?_finalize, hu, hordering, hlimit, Option.map_some]
  have ht' : w'.finalized.objects.table? shape =
      some (u.finalize .hitCountDescending (keptFor none)) := by
    rw [Trace.finalized, table?_finalize, h.module, hu, hlimit', Option.map_some]
    rfl
  have hcounts := w.logged.objects shape u hu
  have hcost := w'.sum_cost_objectsOf h.valid ht' fun _ hmem => h.mem_log_iff.mpr hmem
  rw [w.sum_cost_objectsOf h.valid ht fun _ hmem => hmem]
  exact hcost.trans_le
    (sum_tokenSize_le _ (hcounts.keys_finalize _ _) (hcounts.keys_finalize _ _))

/-- In the order of their uses, the references to all tables cost least. -/
theorem sum_cost_le {w' : Trace (input.ordered true)} (h : Reordered w w')
    (hinsertion : input.config.orderByHitCount = false) :
    (w.log.map w'.cost).sum ≤ (w.log.map w.cost).sum := by
  have hordering : input.config.ordering = .insertion := by
    simp [EncodingConfig.ordering, hinsertion]
  rw [w.sum_cost, w'.sum_cost]
  refine Nat.add_le_add (Nat.add_le_add ?_ ?_) ?_
  · refine sum_tokenSize_le input.config.indexEncoding (hordering ▸ w.keys_strings) ?_
    rw [Trace.finalized, h.module]
    exact w.logged.strings.keys_finalize _ _
  · refine sum_tokenSize_le input.config.indexEncoding (hordering ▸ w.keys_arrays) ?_
    rw [Trace.finalized, h.module]
    exact w.logged.arrays.keys_finalize _ _
  · -- one table of objects after another
    refine sum_le_of_classes input.tableOf? fun id hid => ?_
    obtain ⟨value, hvalue, hobject⟩ := List.mem_filterMap.mp hid
    cases value with
    | null | boolean _ | number _ | string _ | array _ => simp [Value.object?] at hobject
    | object other =>
        obtain rfl : other = id := Option.some.inj hobject
        obtain ⟨shape, hshape, u, hu, -⟩ := w.holds_of_mem_log hvalue
        rw [WalkInput.filter_tableOf? hshape]
        exact h.sum_cost_objectsOf_le hordering hu

/-- In tokens of one width, all references cost the same. -/
theorem cost_eq_of_fixed (h : Reordered w w') (hfixed : input.config.indexEncoding ≠ .varint)
    (value : Value) : w'.cost value = w.cost value := by
  have hposition : (w'.position? value).isSome = (w.position? value).isSome := h.isSome_position?_eq
  rw [Trace.cost, Trace.cost]
  cases hi : w.position? value with
  | none =>
      rw [hi] at hposition
      have hnone : w'.position? value = none := by simpa using hposition
      rw [hnone]
  | some i =>
      rw [hi] at hposition
      obtain ⟨i', hi'⟩ := Option.isSome_iff_exists.mp hposition
      rw [hi']
      exact IndexEncoding.tokenSize_eq_of_fixed hfixed _ _

end Reordered

/-! ### Lengths

The length of a module, part by part. The header, the directory, the tags and the strings are as
long in both modules, and so is what sections and streams have around them. -/

/-- If no object is written in place, all nodes are in tables, each of them once. -/
theorem Trace.order_perm {size : Nat} (hr : input.registry.Valid)
    (hinline : input.config.inlineObjects = false) : (w.replay size).order.Perm w.opened := by
  have hb := w.located hr
  refine (List.perm_ext_iff_of_nodup (Replay.nodup_order (c := w.replay size) hb) w.nodup_opened).mpr fun id => ?_
  rw [w.mem_opened]
  refine ⟨fun hid => ?_, fun hid => w.mem_order hr hinline hid⟩
  rcases List.mem_append.mp hid with hobject | harray
  · obtain ⟨table, htable, hkey⟩ := List.mem_flatMap.mp hobject
    exact w.hasNode_finalized.mp (hb.repOf_of_indexed (Or.inr ⟨table, htable, hkey⟩)).1
  · exact w.hasNode_finalized.mp (hb.repOf_of_indexed (Or.inl harray)).1

namespace Reordered

variable {bytes bytes' : List UInt8} {size size' : Nat} (h : Reordered w w')
include h

theorem forall₂_keys_perm : List.Forall₂ (fun table table' => table.table.keys.Perm table'.table.keys)
    w.finalized.objects.tables w'.finalized.objects.tables := by
  rw [Trace.finalized, Trace.finalized, h.module]
  refine List.forall₂_map_left_iff.mpr (List.forall₂_map_right_iff.mpr (List.forall₂_same.mpr ?_))
  intro table htable
  obtain ⟨shape, ht, -⟩ := w.filled.wellShaped.exists_table? htable
  exact Table.keys_finalize_perm (w.walked.gathered.building.objects shape _ ht) _ _ _

/-- The sections of all object tables, one after another. -/
theorem resized_objects (l : (w.replay size).Layout bytes) (l' : (w'.replay size').Layout bytes') :
    Resized w w' (w.finalized.objects.tables.flatMap fun table =>
      table.table.keys.flatMap (input.tree.slots input.registry))
      l.objectTokens.flatten l'.objectTokens.flatten := by
  have hall := forall₂_imp_of_mem h.forall₂_keys_perm fun table htable table' htable' hkeys =>
    h.resized_objectSection htable htable' hkeys
  have hwritten := l.writes_objects
  have hwritten' := l'.writes_objects
  generalize l.objectTokens = sections at hwritten
  generalize l'.objectTokens = sections' at hwritten'
  change List.Forall₂ _ w.finalized.objects.tables sections at hwritten
  change List.Forall₂ _ w'.finalized.objects.tables sections' at hwritten'
  generalize w.finalized.objects.tables = tables at hall hwritten ⊢
  generalize w'.finalized.objects.tables = tables' at hall hwritten'
  induction hall generalizing sections sections' with
  | nil =>
      cases hwritten
      cases hwritten'
      exact .refl []
  | cons hhead _ ih =>
      cases hwritten with | cons htokens hwritten => ?_
      cases hwritten' with | cons htokens' hwritten' => ?_
      exact (hhead _ _ htokens htokens').append (ih _ _ hwritten hwritten')

/-- All tokens of the two modules. -/
theorem resized_tokens (l : (w.replay size).Layout bytes) (l' : (w'.replay size').Layout bytes') :
    Resized w w' w.log l.tokens l'.tokens := by
  have harrays := h.resized_arraySection _ _ l.writes_arrays l'.writes_arrays
  have hroot := h.resized_rootSection _ _ l.writes_root l'.writes_root
  refine ((h.resized_objects l l').append (harrays.append hroot)).perm_values ?_
  -- The entries of all tables hold the slots of all opened nodes, which is what the walk has met.
  have horder : (w.replay size).order.flatMap (input.tree.slots input.registry) =
      (w.finalized.objects.tables.flatMap fun table =>
        table.table.keys.flatMap (input.tree.slots input.registry)) ++
        w.finalized.arrays.keys.flatMap (input.tree.slots input.registry) := by
    rw [Replay.order, List.flatMap_append, List.flatMap_assoc]
  rw [← List.append_assoc, ← horder]
  exact ((Trace.order_perm h.valid h.inline).flatMap_right _).append_right _ |>.trans
    (List.perm_append_comm.trans w.visits.perm.symm)

/-- The same streams are stored, so what stands around them is as long. A stream is stored if some
token belongs to it, and the tokens of both modules belong to the same streams. -/
theorem length_streams_eq (l : (w.replay size).Layout bytes) (l' : (w'.replay size').Layout bytes') :
    Replay.Layout.streamOverhead l'.w input.config.valueStreams =
      Replay.Layout.streamOverhead l.w input.config.valueStreams := by
  have hbuilt : ∀ {input : WalkInput} (v : Trace input), input.registry.Valid →
      input.config.inlineObjects = false → Built input v.shapes v.rank v.finalized :=
    fun v hr hinline => ⟨v.located hr, fun hplace => by simp [hinline] at hplace⟩
  have hproper := (l.sectionTokens (hbuilt w h.valid h.inline) h.valid).proper
  have hproper' := (l'.sectionTokens (hbuilt w' h.valid h.inline) h.valid).proper
  have hstored := l.sent.streamed.stored
  have hstored' := l'.sent.streamed.stored
  unfold Replay.Layout.streamOverhead
  cases hstreams : input.config.valueStreams with
  | false => rfl
  | true =>
      simp only [hstreams, List.nil_append] at hstored hstored'
      have hperm : (l.w.filled.map (·.1)).Perm (l'.w.filled.map (·.1)) := by
        refine (List.perm_ext_iff_of_nodup hstored.nodup_tags hstored'.nodup_tags).mpr fun key => ?_
        rw [hstored.mem_tags_iff fun token htoken => (hproper token htoken).bytes_ne_nil,
          hstored'.mem_tags_iff fun token htoken => (hproper' token htoken).bytes_ne_nil]
        exact (h.resized_tokens l l').streams.mem_iff
      simpa using hperm.length_eq.symm

/-- The string section has the same texts in another order. -/
theorem length_stringBytes_eq (l : (w.replay size).Layout bytes)
    (l' : (w'.replay size').Layout bytes') : l'.stringBytes.length = l.stringBytes.length := by
  have hlength : ∀ {input : WalkInput} (v : Trace input), input.registry.Valid → ∀ {bytes},
      v.writer.stringSection = .ok bytes →
      bytes.length = 4 + (v.finalized.strings.keys.flatMap Bytes.ofText).length := by
    intro input v hr bytes hwritten
    obtain ⟨order, horder, -, hlisted⟩ := (v.located hr).strings.exists_indexed
    simp only [WriteInput.stringSection, horder, Except.mapError, ok_bind, hlisted] at hwritten
    obtain ⟨count, hcount, h₁⟩ := bind_eq_ok.mp hwritten
    rw [← Except.ok.inj h₁, List.length_append, (lt_of_ofCount hcount).2, Bytes.length_fixed]
  have hperm : w.finalized.strings.keys.Perm w'.finalized.strings.keys := by
    rw [Trace.finalized, Trace.finalized, h.module]
    exact Table.keys_finalize_perm w.walked.gathered.building.strings _ _ _
  rw [hlength w h.valid l.writes_strings, hlength w' h.valid l'.writes_strings,
    (hperm.flatMap_right _).length_eq]

/-- The two modules differ in length by what their references cost. -/
theorem length_add_eq (hbytes : w.writer.bytes = .ok bytes) (hbytes' : w'.writer.bytes = .ok bytes') :
    bytes.length + (w.log.map w'.cost).sum = bytes'.length + (w.log.map w.cost).sum := by
  obtain ⟨l⟩ := Replay.nonempty_layout (c := w.replay bytes.length) hbytes
  obtain ⟨l'⟩ := Replay.nonempty_layout (c := w'.replay bytes'.length) hbytes'
  have htables := h.forall₂_keys_perm.length_eq
  have hdirectory : l'.directory.length = l.directory.length := by
    rw [l.length_directory, l'.length_directory]
    exact congrArg (12 + Replay.Layout.directoryObjectsLength _ ·) htables.symm
  have htags : l'.tagBytes = l.tagBytes := by
    have hsame : w'.writer.tagSection = w.writer.tagSection := by
      simp only [Trace.writer, Trace.finalized, h.module]
      rfl
    exact Except.ok.inj (l'.writes_tags.symm.trans (hsame.trans l.writes_tags))
  have hobjects : l'.objectTokens.length = l.objectTokens.length :=
    l'.writes_objects.length_eq.symm.trans (htables.symm.trans l.writes_objects.length_eq)
  have hstrings := h.length_stringBytes_eq l l'
  have hstreams := h.length_streams_eq l l'
  have htokens := (h.resized_tokens l l').size
  have hrest : l.rest.length = Replay.Layout.streamOverhead l.w input.config.valueStreams +
      8 * (l.objectTokens.length + 2) + (allBytes l.tokens).length := l.length_rest
  have hrest' : l'.rest.length = Replay.Layout.streamOverhead l'.w input.config.valueStreams +
      8 * (l'.objectTokens.length + 2) + (allBytes l'.tokens).length := l'.length_rest
  have hheader : (w'.replay bytes'.length).writer.header = (w.replay bytes.length).writer.header := rfl
  rw [hobjects, hstreams] at hrest'
  rw [l.length_bytes, l'.length_bytes, hheader, hdirectory, htags, hstrings, hrest, hrest']
  omega

end Reordered

/-! ### Encoding with and without the order

The two encodings start from one walk, so the results about a reordered module apply. -/

variable {description : RegistryDescription} {registry : Registry} {tree : Tree}
  {config : EncodingConfig} {bytes bytes' : List UInt8}

/-- The modules with and without the order come from walks that fill the same tables. -/
theorem exists_reordered {m m' : Module} (hr : registry.Valid) (hdedupe : config.dedupe = false)
    (hinline : config.inlineObjects = false)
    (h : build tree registry { config with orderByHitCount := false } = .ok m)
    (h' : build tree registry { config with orderByHitCount := true } = .ok m') :
    ∃ (w : Trace ⟨tree, registry, { config with orderByHitCount := false }⟩)
      (w' : Trace (WalkInput.ordered ⟨tree, registry, { config with orderByHitCount := false }⟩ true)),
      m = w.finalized ∧ m' = w'.finalized ∧ Reordered w w' := by
  obtain ⟨⟨walked, postOrder⟩, hwalk, -⟩ := bind_eq_ok.mp h
  have hwalk' := (WalkInput.walk_ordered _ true).trans hwalk
  obtain ⟨w, hmodule, hleft⟩ := WalkInput.exists_trace hr hwalk
  obtain ⟨w', hmodule', hleft'⟩ := WalkInput.exists_trace hr hwalk'
  rw [← hmodule, ← hleft] at hwalk
  rw [← hmodule', ← hleft'] at hwalk'
  exact ⟨w, w', Except.ok.inj (h.symm.trans (build_of_walk hdedupe hwalk)),
    Except.ok.inj (h'.symm.trans (build_of_walk hdedupe hwalk')),
    hr, hinline, hmodule'.trans hmodule.symm⟩

end Module

end SyntaxPack
