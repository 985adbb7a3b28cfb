import SyntaxPack.Module.Dedupe
import SyntaxPack.Proofs.Encode.Objects
import SyntaxPack.Proofs.Monad
/-!
# SyntaxPack.Proofs.Policy.Unchecked

Modules whose tables do not check for divergence.

A table asks whether it checks for divergence when a name is added to it again, and only to
fail if it does. So what is added to a table can be added to the same table without the check,
and all other programs cannot tell the two apart: deduplication and finalization lead from a
module without checks to what they lead to from the module with checks, without checks.
-/

namespace SyntaxPack

/-! ### Tables

Adding is the one operation that reads the switch, and it only goes one way: without the check it
succeeds where it did with it. All other operations do not see it, and are equal on both sides. -/

namespace Table

variable {κ ν : Type} {t t' : Table κ ν} {handle : Handle}

/-- The same table without a check for divergence. -/
def unchecked (t : Table κ ν) : Table κ ν := { t with checkDivergence := false }

@[simp] theorem entries_unchecked (t : Table κ ν) : t.unchecked.entries = t.entries := rfl

@[simp] theorem order_unchecked (t : Table κ ν) : t.unchecked.order = t.order := rfl

@[simp] theorem resolve_unchecked (t : Table κ ν) : t.unchecked.resolve = t.resolve := rfl

@[simp] theorem ensureBuilding_unchecked (t : Table κ ν) :
    t.unchecked.ensureBuilding = t.ensureBuilding := rfl

@[simp] theorem get?_unchecked [DecidableEq κ] (t : Table κ ν) : t.unchecked.get? = t.get? := rfl

@[simp] theorem require_unchecked [DecidableEq κ] [EntryName κ] (t : Table κ ν) :
    t.unchecked.require = t.require := rfl

theorem add_unchecked [DecidableEq κ] [DecidableEq ν] [EntryName κ] {name : κ} {value : ν}
    (h : t.add name value = .ok (handle, t')) :
    t.unchecked.add name value = .ok (handle, t'.unchecked) := by
  unfold add at h ⊢
  obtain ⟨_, hbuilding, h⟩ := bind_eq_ok.mp h
  rw [ensureBuilding_unchecked, hbuilding, ok_bind, get?_unchecked]
  cases hget : t.get? name with
  | none =>
      rw [hget] at h
      obtain ⟨rfl, rfl⟩ := Prod.mk.inj (Except.ok.inj h)
      rfl
  | some found =>
      simp only [hget] at h
      split at h
      · cases h
      · obtain ⟨rfl, rfl⟩ := Prod.mk.inj (Except.ok.inj h)
        rfl

theorem dedupeHandles_unchecked [EntryName κ] (t : Table κ ν) (source target : Handle) :
    t.unchecked.dedupeHandles source target = (t.dedupeHandles source target).map unchecked := by
  unfold dedupeHandles
  rw [ensureBuilding_unchecked, resolve_unchecked, entries_unchecked]
  cases t.ensureBuilding with
  | error e => rfl
  | ok _ =>
      simp only [ok_bind]
      split
      · split <;> rfl
      · rfl

theorem dedupe_unchecked [DecidableEq κ] [EntryName κ] (t : Table κ ν) (source target : κ) :
    t.unchecked.dedupe source target = (t.dedupe source target).map unchecked := by
  unfold dedupe
  rw [require_unchecked]
  cases t.require source with
  | error e => rfl
  | ok source =>
      cases t.require target with
      | error e => rfl
      | ok target => exact t.dedupeHandles_unchecked source target

theorem finalize_unchecked (t : Table κ ν) (ordering : TableOrdering) (keep : Entry κ ν → Bool) :
    t.unchecked.finalize ordering keep = (t.finalize ordering keep).unchecked := by
  unfold finalize
  rw [order_unchecked]
  cases t.order <;> rfl

end Table

/-! ### Object tables

A table that is set up later takes the switch from the tables, which therefore loses it, too. -/

/-- The same objects in a table without a check for divergence. -/
def ObjectTable.unchecked (t : ObjectTable) : ObjectTable := { t with table := t.table.unchecked }

namespace ObjectTables

variable {objects objects' : ObjectTables} {registry : Registry} {shape : ShapeId}

/-- The same tables without checks for divergence. -/
def unchecked (objects : ObjectTables) : ObjectTables where
  partitioned := objects.partitioned
  checkDivergence := false
  tables := objects.tables.map (·.unchecked)

theorem table?_unchecked (objects : ObjectTables) (shape : ShapeId) :
    objects.unchecked.table? shape = (objects.table? shape).map (·.unchecked) :=
  table?_map (·.unchecked) (fun _ => rfl) (·.unchecked) (fun _ => rfl)

theorem ensureTable_unchecked (objects : ObjectTables) (registry : Registry) (shape : ShapeId) :
    objects.unchecked.ensureTable registry shape = (objects.ensureTable registry shape).unchecked := by
  unfold ensureTable
  rw [table?_unchecked, Option.isSome_map]
  split
  · rfl
  · simp only [unchecked, List.map_append, List.map_cons, List.map_nil]
    rfl

theorem setTable_unchecked (objects : ObjectTables) (shape : ShapeId) (table : UniqueTable NodeId) :
    objects.unchecked.setTable shape table.unchecked = (objects.setTable shape table).unchecked := by
  have hslot : objects.unchecked.tables.findIdx? (objects.unchecked.holds shape) =
      objects.tables.findIdx? (objects.holds shape) := List.findIdx?_map ..
  unfold setTable
  rw [hslot]
  cases objects.tables.findIdx? (objects.holds shape) with
  | none => rfl
  | some slot =>
      simp only [unchecked]
      congr 1
      refine List.ext_getElem? fun i => ?_
      simp only [List.getElem?_modify, List.getElem?_map]
      cases objects.tables[i]? with
      | none => rfl
      | some t => split <;> rfl

/-- A change of a table that goes for the table without the check, too. -/
theorem update_unchecked {f g : UniqueTable NodeId → Except TableError (UniqueTable NodeId)}
    (h : ∀ t, (objects.ensureTable registry shape).table? shape = some t →
      g t.unchecked = (f t).map Table.unchecked) :
    objects.unchecked.update registry shape g = (objects.update registry shape f).map unchecked := by
  unfold update
  simp only [ensureTable_unchecked, table?_unchecked]
  cases htable : (objects.ensureTable registry shape).table? shape with
  | none => rfl
  | some t =>
      simp only [Option.map_some, h t htable]
      cases f t with
      | error e => rfl
      | ok t' => exact congrArg Except.ok (setTable_unchecked _ shape t')

theorem update_unchecked_of_ok {f g : UniqueTable NodeId → Except TableError (UniqueTable NodeId)}
    (h : ∀ t t', f t = .ok t' → g t.unchecked = .ok t'.unchecked)
    (hupdate : objects.update registry shape f = .ok objects') :
    objects.unchecked.update registry shape g = .ok objects'.unchecked := by
  have hcomm : objects.unchecked.update registry shape g =
      (objects.update registry shape f).map unchecked := by
    refine update_unchecked fun t ht => ?_
    unfold update at hupdate
    simp only [ht] at hupdate
    obtain ⟨t', ht', -⟩ := bind_eq_ok.mp hupdate
    rw [h t t' ht', ht']
    rfl
  rw [hcomm, hupdate]
  rfl

end ObjectTables

/-! ### Modules

What the walk does to a module is adding to tables. -/

namespace Module

variable {m m' : Module} {registry : Registry} {tree : Tree} {shape : ShapeId} {id : NodeId}
  {isNew : Bool}

/-- The same module without checks for divergence. -/
def unchecked (m : Module) : Module :=
  { m with
    tags := m.tags.unchecked
    strings := m.strings.unchecked
    objects := m.objects.unchecked
    arrays := m.arrays.unchecked }

@[simp] theorem objects_unchecked (m : Module) : m.unchecked.objects = m.objects.unchecked := rfl

@[simp] theorem arrays_unchecked (m : Module) : m.unchecked.arrays = m.arrays.unchecked := rfl

/-- Only nodes and element tags decide about classes. -/
@[simp] theorem classify_unchecked (m : Module) : m.unchecked.classify = m.classify := rfl

/-- The index of a tag is looked up among the entries. -/
@[simp] theorem tagIndex_unchecked (m : Module) : m.unchecked.tagIndex = m.tagIndex := by
  funext registry tag
  cases tag <;> rfl

/-- A module that begins without checks. -/
theorem empty_unchecked (config : EncodingConfig) :
    (empty config).unchecked = empty { config with checkDivergence := false } := by
  cases hp : config.partitionedTables <;>
    simp only [empty, unchecked, ObjectTables.empty, ObjectTables.unchecked, hp] <;> rfl

theorem internString_unchecked {s : String} (h : m.internString s = .ok m') :
    m.unchecked.internString s = .ok m'.unchecked := by
  obtain ⟨⟨handle, strings⟩, hintern, h⟩ := bind_eq_ok.mp h
  obtain rfl := Except.ok.inj h
  exact bind_eq_ok.mpr ⟨_, Table.add_unchecked hintern, rfl⟩

theorem registerArray_unchecked (h : m.registerArray id = .ok (isNew, m')) :
    m.unchecked.registerArray id = .ok (isNew, m'.unchecked) := by
  obtain ⟨⟨handle, arrays⟩, hintern, h⟩ := bind_eq_ok.mp h
  obtain ⟨rfl, rfl⟩ := Prod.mk.inj (Except.ok.inj h)
  exact bind_eq_ok.mpr ⟨_, Table.add_unchecked hintern, rfl⟩

theorem registerObject_unchecked (h : m.registerObject registry shape id = .ok (isNew, m')) :
    m.unchecked.registerObject registry shape id = .ok (isNew, m'.unchecked) := by
  obtain ⟨⟨handle, tags⟩, htags, h⟩ := bind_eq_ok.mp h
  obtain ⟨objects, hobjects, h⟩ := bind_eq_ok.mp h
  obtain ⟨rfl, rfl⟩ := Prod.mk.inj (Except.ok.inj h)
  have hnew : ((m.unchecked.objects.table? shape).bind (·.get? id)) =
      (m.objects.table? shape).bind (·.get? id) := by
    rw [objects_unchecked, ObjectTables.table?_unchecked]
    cases m.objects.table? shape <;> rfl
  refine bind_eq_ok.mpr ⟨_, Table.add_unchecked htags, bind_eq_ok.mpr ⟨objects.unchecked,
    ObjectTables.update_unchecked_of_ok (fun t t' ht => ?_) hobjects, ?_⟩⟩
  · obtain ⟨⟨handle, table⟩, hintern, h⟩ := bind_eq_ok.mp ht
    obtain rfl := Except.ok.inj h
    exact bind_eq_ok.mpr ⟨_, Table.add_unchecked hintern, rfl⟩
  · rw [← hnew]
    rfl

/-! ### Deduplication

Merging compares hits and nodes, and neither depends on the switch. So whole runs are equal,
failures included. -/

theorem dedupeArray_unchecked (m : Module) (source target : NodeId) :
    m.unchecked.dedupeArray source target = (m.dedupeArray source target).map unchecked := by
  unfold dedupeArray
  rw [arrays_unchecked, Table.dedupe_unchecked]
  cases m.arrays.dedupe source target <;> rfl

theorem dedupeObject_unchecked (m : Module) (registry : Registry) (shape : ShapeId)
    (source target : NodeId) : m.unchecked.dedupeObject registry shape source target =
      (m.dedupeObject registry shape source target).map unchecked := by
  have hupdate : m.objects.unchecked.update registry shape (·.dedupe source target) =
      (m.objects.update registry shape (·.dedupe source target)).map ObjectTables.unchecked :=
    ObjectTables.update_unchecked fun t _ => t.dedupe_unchecked source target
  unfold dedupeObject
  rw [objects_unchecked, hupdate]
  cases m.objects.update registry shape (·.dedupe source target) <;> rfl

theorem usesOf_unchecked (m : Module) : m.unchecked.usesOf = m.usesOf := by
  funext shape id
  cases shape with
  | none => rfl
  | some shape =>
      unfold usesOf
      simp only [objects_unchecked, ObjectTables.table?_unchecked]
      cases m.objects.table? shape <;> rfl

theorem mergeNode_unchecked (registry : Registry) (shape : Option ShapeId) (m : Module)
    (source target : NodeId) : mergeNode registry shape m.unchecked source target =
      (mergeNode registry shape m source target).map unchecked := by
  cases shape with
  | some shape => exact m.dedupeObject_unchecked ..
  | none => exact m.dedupeArray_unchecked ..

theorem mergeMember_unchecked (registry : Registry) (shape : Option ShapeId) (target : NodeId)
    (state : Nat × Module) (source : NodeId) :
    mergeMember registry shape target (state.1, state.2.unchecked) source =
      (mergeMember registry shape target state source).map fun state =>
        (state.1, state.2.unchecked) := by
  unfold mergeMember
  rw [mergeNode_unchecked]
  cases mergeNode registry shape state.2 source target <;> rfl

theorem mergeClass_unchecked (registry : Registry) (minUses : Nat) (state : Nat × Module)
    (c : NodeClass) : mergeClass registry minUses (state.1, state.2.unchecked) c =
      (mergeClass registry minUses state c).map fun state => (state.1, state.2.unchecked) := by
  unfold mergeClass
  split
  · simp only [usesOf_unchecked]
    split
    · rfl
    · exact foldlM_map_comm (mergeMember_unchecked registry c.key.shape? _) _ state
  · rfl

theorem dedupe_unchecked (m : Module) (tree : Tree) (registry : Registry) (postOrder : List NodeId)
    (minUses : Nat) : m.unchecked.dedupe tree registry postOrder minUses =
      (m.dedupe tree registry postOrder minUses).map fun state => (state.1, state.2.unchecked) := by
  unfold dedupe
  rw [classify_unchecked]
  cases m.classify tree registry postOrder with
  | error e => rfl
  | ok classes =>
      have hmerge := foldlM_map_comm (mergeClass_unchecked registry minUses) classes (0, m)
      simp only [ok_bind, hmerge]
      cases classes.foldlM (mergeClass registry minUses) (0, m) <;> rfl

/-! ### Finalization -/

theorem finalize_unchecked (m : Module) (ordering : TableOrdering) (limit : Option Nat) :
    m.unchecked.finalize ordering limit = (m.finalize ordering limit).unchecked := by
  have htables : ∀ keep, m.unchecked.objects.tables.map
      (fun t => { t with table := t.table.finalize ordering keep }) =
      (m.objects.tables.map fun t => { t with table := t.table.finalize ordering keep }).map
        ObjectTable.unchecked := by
    intro keep
    show (m.objects.tables.map _).map _ = _
    rw [List.map_map, List.map_map]
    refine List.map_congr_left fun t _ => ?_
    exact congrArg (ObjectTable.mk t.shape) (t.table.finalize_unchecked ordering keep)
  have htags : m.unchecked.tags.finalizeAll .insertion = (m.tags.finalizeAll .insertion).unchecked :=
    m.tags.finalize_unchecked ..
  have hstrings : Table.finalizeAll m.unchecked.strings ordering =
      (Table.finalizeAll m.strings ordering).unchecked := Table.finalize_unchecked ..
  have harrays : Table.finalizeAll m.unchecked.arrays ordering =
      (Table.finalizeAll m.arrays ordering).unchecked := Table.finalize_unchecked ..
  unfold finalize
  simp only [htables, htags, hstrings, harrays]
  rfl

end Module

end SyntaxPack
