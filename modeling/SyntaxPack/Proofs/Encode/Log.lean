import SyntaxPack.Proofs.Encode.Visits
import SyntaxPack.Proofs.Encode.Walk
import SyntaxPack.Proofs.Table.Counting
/-!
# SyntaxPack.Proofs.Encode.Log

The tables of a walk as a record of what it met.

`Logged` says that the tables of a module are those that come from registering the values
of a list one after another: every table holds the first occurrences of its kind, with as
many hits as there are occurrences. A walk keeps this up, and what it adds to the list is
what `Visits` says that it meets.

With that a walk can be forgotten: what its tables look like is a function of the list of values,
and all later statements on names, hits and the order of tables are about that list. In particular:

* strings and arrays have one table each, which counts the values of the kind
  (`UniqueTable.Counts`);
* tags are those of the shapes among the values, in the order of their first objects (`shapesOf`);
* objects have a table for each shape, or one for all, and `objectsOf` picks the values that go into
  the table of a shape in either case.

Values that stand for themselves are in the list, too. They change no table, but they are met, and
the lists of values that nodes hold can be compared with the log as they are.
-/

namespace SyntaxPack

namespace Value

/-- The text of a string. -/
def string? : Value → Option String
  | .string s => some s
  | _ => none

/-- The node of an array. -/
def array? : Value → Option NodeId
  | .array id => some id
  | _ => none

/-- The node of an object. -/
def object? : Value → Option NodeId
  | .object id => some id
  | _ => none

end Value

/-! ### Tables and their logs

Projections of a list of values, and tables that count them. All tables of a module are instances of
one statement on tables of names (`keys_finalize`). -/

/-- A table to which names were added one after another, and nothing else has been done to. Its
label and whether it compares values are of no account. -/
def UniqueTable.Counts {κ : Type} [DecidableEq κ] (log : List κ) (t : UniqueTable κ) : Prop :=
  ∃ label check, t = counting label check log

theorem UniqueTable.Counts.intern {κ : Type} [DecidableEq κ] [EntryName κ] {log : List κ}
    {t t' : UniqueTable κ} {x : κ} {a : Handle} (h : Counts log t) (hrun : t.intern x = .ok (a, t')) :
    Counts (log ++ [x]) t' := by
  obtain ⟨label, check, rfl⟩ := h
  exact ⟨label, check, intern_counting hrun⟩

theorem UniqueTable.counts_empty {κ : Type} [DecidableEq κ] (label : String) (check : Bool) :
    Counts ([] : List κ) (.empty label check) :=
  ⟨label, check, rfl⟩

theorem UniqueTable.Counts.names {κ : Type} [DecidableEq κ] {log : List κ} {t : UniqueTable κ}
    (h : Counts log t) : Table.names t = log.eraseDups := by
  obtain ⟨label, check, rfl⟩ := h
  exact names_counting

/-- The keys of a finalized table are the first occurrences that are kept, in the order that is
asked for. -/
theorem UniqueTable.Counts.keys_finalize {κ : Type} [DecidableEq κ] {log : List κ}
    {t : UniqueTable κ} (h : Counts log t) (ordering : TableOrdering) (keep : Entry κ κ → Bool) :
    (t.finalize ordering keep).keys =
      inOrder ordering log (log.eraseDups.filter fun x => keep (countedEntry log x)) := by
  obtain ⟨label, check, rfl⟩ := h
  exact keys_counting ordering keep

namespace Tree

variable (tree : Tree) (registry : Registry)

/-- The shape of the object that a value refers to. -/
def shapeOf? (value : Value) : Option ShapeId := value.object?.bind (tree.shape? registry)

/-- The object that a value refers to, if it is in the table of a shape. If tables are shared, every
object is in the table of every shape. -/
def tabled? (partitioned : Bool) (shape : ShapeId) (value : Value) : Option NodeId :=
  value.object?.filter fun id => !partitioned || tree.shape? registry id = some shape

variable {tree registry}

theorem tabled?_eq_some_iff {partitioned : Bool} {shape : ShapeId} {value : Value} {id : NodeId} :
    tree.tabled? registry partitioned shape value = some id ↔
      value = .object id ∧ (partitioned = false ∨ tree.shape? registry id = some shape) := by
  simp only [tabled?, Option.filter_eq_some_iff, Bool.or_eq_true, Bool.not_eq_true',
    decide_eq_true_eq]
  refine and_congr_left fun _ => ?_
  cases value <;> simp [Value.object?]

end Tree

namespace ObjectTables

variable {objects objects' : ObjectTables} {registry : Registry} {shape : ShapeId}

/-- The shapes of the tables. -/
def shapes (objects : ObjectTables) : List (Option ShapeId) := objects.tables.map (·.shape)

theorem shapes_setTable (t : UniqueTable NodeId) :
    (objects.setTable shape t).shapes = objects.shapes := by
  unfold setTable
  split
  · rename_i slot _
    refine List.ext_getElem? fun i => ?_
    simp only [shapes, List.getElem?_map, List.getElem?_modify]
    cases objects.tables[i]? with
    | none => simp
    | some table =>
        by_cases hslot : slot = i
        · simp [hslot]
        · simp [hslot]
  · rfl

/-- Changing the table of a shape adds a table for it if there is none. -/
theorem shapes_update {f : UniqueTable NodeId → Except TableError (UniqueTable NodeId)}
    (h : objects.update registry shape f = .ok objects') :
    objects'.shapes = if (objects.table? shape).isSome then objects.shapes
      else objects.shapes ++ [some shape] := by
  have hensure : (objects.ensureTable registry shape).shapes =
      if (objects.table? shape).isSome then objects.shapes else objects.shapes ++ [some shape] := by
    unfold ensureTable
    split
    · rfl
    · simp [shapes]
  rw [← hensure]
  simp only [update] at h
  split at h
  · obtain ⟨t, -, h₁⟩ := bind_eq_ok.mp h
    obtain rfl := Except.ok.inj h₁
    exact shapes_setTable t
  · rw [Except.ok.inj h]

/-- A shape has a table where tables are shared, and where there is one for it. -/
theorem WellShaped.isSome_table?_iff (hw : objects.WellShaped) :
    (objects.table? shape).isSome = true ↔
      objects.partitioned = false ∨ some shape ∈ objects.shapes := by
  cases hp : objects.partitioned with
  | false =>
      obtain ⟨t, htables⟩ := hw.shared hp
      simp [table?_of_shared hp htables]
  | true =>
      simp only [Option.isSome_iff_exists, hw.table?_eq_some_iff hp, shapes, List.mem_map,
        Bool.true_eq_false, false_or]
      constructor
      · rintro ⟨t, ht⟩
        exact ⟨_, ht, rfl⟩
      · rintro ⟨⟨_, t⟩, ht, rfl⟩
        exact ⟨t, ht⟩

end ObjectTables

namespace Module

variable {input : WalkInput} {log : List Value} {m m' : Module} {id : NodeId} {shape : ShapeId}

namespace WalkInput

/-- The shapes of the objects among values, in the order of their first occurrence. -/
def shapesOf (input : WalkInput) (log : List Value) : List ShapeId :=
  (log.filterMap (input.tree.shapeOf? input.registry)).eraseDups

/-- The objects among values that are in the table of a shape. -/
def objectsOf (input : WalkInput) (shape : ShapeId) (log : List Value) : List NodeId :=
  log.filterMap (input.tree.tabled? input.registry input.config.partitionedTables shape)

/-- Shapes that share a table have the same objects in it. -/
theorem objectsOf_congr {other : ShapeId}
    (hp : m.objects.partitioned = input.config.partitionedTables)
    (htogether : m.objects.Together shape other) :
    input.objectsOf other log = input.objectsOf shape log := by
  rcases htogether with hshared | rfl
  · rw [hp] at hshared
    unfold WalkInput.objectsOf Tree.tabled?
    simp [hshared]
  · rfl

end WalkInput

/-- The tables of a module are those that come from registering values one after another. The first
three fields say so of strings, arrays and tags, the others of the tables of objects: which there
are, and what each holds. -/
structure Logged (input : WalkInput) (log : List Value) (m : Module) : Prop where
  strings : UniqueTable.Counts (log.filterMap Value.string?) m.strings
  arrays : UniqueTable.Counts (log.filterMap Value.array?) m.arrays
  tags : TagTable input.registry (input.shapesOf log) m.tags
  wellShaped : m.objects.WellShaped
  partitioned : m.objects.partitioned = input.config.partitionedTables
  shapes : m.objects.shapes =
    if input.config.partitionedTables then (input.shapesOf log).map some else [none]
  objects : ∀ shape t, m.objects.table? shape = some t →
    UniqueTable.Counts (input.objectsOf shape log) t

theorem logged_empty (input : WalkInput) : Logged input [] (.empty input.config) := by
  refine ⟨UniqueTable.counts_empty _ _, UniqueTable.counts_empty _ _, .seeded _ _,
    ObjectTables.wellShaped_empty _ _, rfl, ?_, fun shape t ht => ?_⟩
  · cases hp : input.config.partitionedTables with
    -- With a table for each shape there is none yet; a shared table is there from the start.
    | true => simp [empty, ObjectTables.empty, hp, ObjectTables.shapes, WalkInput.shapesOf]
    | false => simp [empty, ObjectTables.empty, hp, ObjectTables.shapes]
  · obtain ⟨table, htable, -, rfl⟩ := ObjectTables.exists_mem_of_table? ht
    cases hp : input.config.partitionedTables with
    | true => simp [empty, ObjectTables.empty, hp] at htable
    | false =>
        simp only [empty, ObjectTables.empty, hp, Bool.false_eq_true, if_false,
          List.mem_singleton] at htable
        rw [htable]
        exact UniqueTable.counts_empty _ _

namespace Logged

/-! ### Registering a value

What is not an object changes one of two tables and leaves the rest alone. -/

theorem filterMap_snoc_of_none {α : Type} {f : Value → Option α} {value : Value} (h : f value = none) :
    (log ++ [value]).filterMap f = log.filterMap f := by
  simp [List.filterMap_append, h]

theorem filterMap_snoc_of_some {α : Type} {f : Value → Option α} {value : Value} {a : α}
    (h : f value = some a) : (log ++ [value]).filterMap f = log.filterMap f ++ [a] := by
  simp [List.filterMap_append, h]

/-- What is not an object leaves the tags and the tables of objects as they are. -/
theorem of_not_object (h : Logged input log m) {value : Value} (hvalue : value.object? = none)
    (hstrings : UniqueTable.Counts ((log ++ [value]).filterMap Value.string?) m'.strings)
    (harrays : UniqueTable.Counts ((log ++ [value]).filterMap Value.array?) m'.arrays)
    (htags : m'.tags = m.tags) (hobjects : m'.objects = m.objects) :
    Logged input (log ++ [value]) m' := by
  have hshapeOf : input.tree.shapeOf? input.registry value = none := by
    rw [Tree.shapeOf?, hvalue, Option.bind_none]
  have hshapes : input.shapesOf (log ++ [value]) = input.shapesOf log := by
    rw [WalkInput.shapesOf, filterMap_snoc_of_none hshapeOf, WalkInput.shapesOf]
  have hselected : ∀ shape, input.objectsOf shape (log ++ [value]) = input.objectsOf shape log :=
    fun shape => filterMap_snoc_of_none (by rw [Tree.tabled?, hvalue, Option.filter_none])
  refine ⟨hstrings, harrays, ?_, ?_, ?_, ?_, fun shape t ht => ?_⟩
  · rw [hshapes, htags]
    exact h.tags
  · rw [hobjects]
    exact h.wellShaped
  · rw [hobjects]
    exact h.partitioned
  · rw [hobjects, hshapes]
    exact h.shapes
  · rw [hobjects] at ht
    rw [hselected]
    exact h.objects shape t ht

/-- A value that stands for itself belongs to no table. -/
theorem plain (h : Logged input log m) {value : Value} (hnode : value.node? = none)
    (hstring : value.string? = none) : Logged input (log ++ [value]) m := by
  have hobject : value.object? = none := by
    cases value <;> simp_all [Value.object?, Value.node?]
  have harray : value.array? = none := by
    cases value <;> simp_all [Value.array?, Value.node?]
  refine h.of_not_object hobject ?_ ?_ rfl rfl
  · rw [filterMap_snoc_of_none hstring]
    exact h.strings
  · rw [filterMap_snoc_of_none harray]
    exact h.arrays

theorem internString (h : Logged input log m) {s : String} (hrun : m.internString s = .ok m') :
    Logged input (log ++ [.string s]) m' := by
  obtain ⟨⟨a, strings⟩, hintern, h₁⟩ := bind_eq_ok.mp hrun
  obtain rfl := Except.ok.inj h₁
  refine h.of_not_object (show Value.object? (.string s) = none from rfl) ?_ ?_ rfl rfl
  · rw [filterMap_snoc_of_some (show Value.string? (.string s) = some s from rfl)]
    exact h.strings.intern hintern
  · rw [filterMap_snoc_of_none (show Value.array? (.string s) = none from rfl)]
    exact h.arrays

/-- An array is new to the table just if it has not been met before. -/
theorem registerArray (h : Logged input log m) {isNew : Bool}
    (hrun : m.registerArray id = .ok (isNew, m')) :
    Logged input (log ++ [.array id]) m' ∧ (isNew = true ↔ .array id ∉ log) := by
  obtain ⟨⟨a, arrays⟩, hintern, h₁⟩ := bind_eq_ok.mp hrun
  obtain ⟨rfl, rfl⟩ := Prod.mk.inj (Except.ok.inj h₁)
  constructor
  · refine h.of_not_object (show Value.object? (.array id) = none from rfl) ?_ ?_ rfl rfl
    · rw [filterMap_snoc_of_none (show Value.string? (.array id) = none from rfl)]
      exact h.strings
    · rw [filterMap_snoc_of_some (show Value.array? (.array id) = some id from rfl)]
      exact h.arrays.intern hintern
  · obtain ⟨label, check, harrays⟩ := h.arrays
    -- That the table has no entry for the array is said of the log.
    rw [harrays, UniqueTable.get?_counting_isNone, List.mem_filterMap]
    refine not_congr ⟨?_, fun hmem => ⟨_, hmem, rfl⟩⟩
    rintro ⟨value, hvalue, hid⟩
    cases value with
    | array other => exact Option.some.inj hid ▸ hvalue
    | null | boolean _ | number _ | string _ | object _ => simp [Value.array?] at hid

/-! ### Registering an object

An object changes up to three tables: that of tags, if it is the first of its shape, the list of
object tables, for the same reason, and the table of its shape. Which other shapes share that table
is `Together`. -/

theorem mem_objectsOf : id ∈ input.objectsOf shape log ↔
    .object id ∈ log ∧ (input.config.partitionedTables = false ∨
      input.tree.shape? input.registry id = some shape) := by
  simp only [WalkInput.objectsOf, List.mem_filterMap, Tree.tabled?_eq_some_iff]
  constructor
  · rintro ⟨_, hvalue, rfl, htable⟩
    exact ⟨hvalue, htable⟩
  · intro h
    exact ⟨_, h.1, rfl, h.2⟩

theorem objectsOf_congr {other : ShapeId} (h : Logged input log m)
    (htogether : m.objects.Together shape other) :
    input.objectsOf other log = input.objectsOf shape log :=
  WalkInput.objectsOf_congr h.partitioned htogether

/-- The table of a shape, set up if need be, has the objects of the shape. -/
theorem tableOrEmpty (h : Logged input log m) (shape : ShapeId) :
    UniqueTable.Counts (input.objectsOf shape log)
      (m.objects.tableOrEmpty input.registry shape) := by
  rw [ObjectTables.tableOrEmpty]
  cases ht : m.objects.table? shape with
  | some t => exact h.objects shape t ht
  | none =>
      -- without a table for the shape there is no object of it
      have hnone : ¬ (m.objects.table? shape).isSome = true := by simp [ht]
      rw [h.wellShaped.isSome_table?_iff, not_or, Bool.not_eq_false] at hnone
      obtain ⟨hp, hmem⟩ := hnone
      rw [h.partitioned] at hp
      have hempty : input.objectsOf shape log = [] := by
        refine List.eq_nil_iff_forall_not_mem.mpr fun id hid => hmem ?_
        obtain ⟨hlog, hshared | hshape⟩ := mem_objectsOf.mp hid
        · simp [hp] at hshared
        · rw [h.shapes, if_pos hp]
          refine List.mem_map_of_mem (List.mem_eraseDups.mpr (List.mem_filterMap.mpr ⟨_, hlog, ?_⟩))
          rw [Tree.shapeOf?, Value.object?, Option.bind_some, hshape]
      rw [hempty]
      exact UniqueTable.counts_empty _ _

section Object

variable (hshape : input.tree.shape? input.registry id = some shape)
include hshape

/-- The shape of an object is listed when the first object of it is met. -/
theorem shapesOf_snoc : input.shapesOf (log ++ [.object id]) =
    if shape ∈ input.shapesOf log then input.shapesOf log else input.shapesOf log ++ [shape] := by
  have hshapeOf : input.tree.shapeOf? input.registry (.object id) = some shape := by
    rw [Tree.shapeOf?, Value.object?, Option.bind_some, hshape]
  rw [WalkInput.shapesOf, filterMap_snoc_of_some hshapeOf, Firsts.eraseDups_snoc]
  simp only [WalkInput.shapesOf, List.mem_eraseDups]

variable {other : ShapeId} (h : Logged input log m)
include h

/-- An object is in the table of its shape. -/
theorem objectsOf_snoc_of_together (htogether : m.objects.Together shape other) :
    input.objectsOf other (log ++ [.object id]) = input.objectsOf shape log ++ [id] := by
  rw [← h.objectsOf_congr htogether]
  refine filterMap_snoc_of_some ?_
  rcases htogether with hshared | rfl
  · rw [h.partitioned] at hshared
    simp [Tree.tabled?, Value.object?, hshared]
  · simp [Tree.tabled?, Value.object?, hshape]

/-- It is in no other table. -/
theorem objectsOf_snoc_of_apart (hapart : ¬ m.objects.Together shape other) :
    input.objectsOf other (log ++ [.object id]) = input.objectsOf other log := by
  obtain ⟨hp, hne⟩ := not_or.mp hapart
  rw [h.partitioned, Bool.not_eq_false] at hp
  exact filterMap_snoc_of_none (by simp [Tree.tabled?, Value.object?, hshape, hp, hne])

/-- An object is new to the table of its shape just if it has not been met before, for an object has
one shape only and is in no other table. -/
theorem registerObject (hr : input.registry.Valid) {isNew : Bool}
    (hrun : m.registerObject input.registry shape id = .ok (isNew, m')) :
    Logged input (log ++ [.object id]) m' ∧ (isNew = true ↔ .object id ∉ log) := by
  obtain ⟨⟨a, tags⟩, htags, h₁⟩ := bind_eq_ok.mp hrun
  obtain ⟨objects, hobjects, h₂⟩ := bind_eq_ok.mp h₁
  obtain ⟨rfl, rfl⟩ := Prod.mk.inj (Except.ok.inj h₂)
  obtain ⟨t, ht, hu⟩ := h.wellShaped.updated hobjects
  obtain ⟨⟨b, t'⟩, hintern, h₃⟩ := bind_eq_ok.mp ht
  obtain rfl := Except.ok.inj h₃
  obtain ⟨object, -, hlookup⟩ := Tree.shape?_eq_some_iff.mp hshape
  constructor
  · refine ⟨?_, ?_, ?_, hu.wellShaped, hu.partitioned.trans h.partitioned, ?_, fun other u hother => ?_⟩
    · rw [filterMap_snoc_of_none (show Value.string? (.object id) = none from rfl)]
      exact h.strings
    · rw [filterMap_snoc_of_none (show Value.array? (.object id) = none from rfl)]
      exact h.arrays
    · rw [shapesOf_snoc hshape]
      exact (h.tags.add hr (Registry.lookup_eq_some hlookup).1 htags).2
    · have htable := @ObjectTables.WellShaped.isSome_table?_iff m.objects shape h.wellShaped
      rw [ObjectTables.shapes_update hobjects, shapesOf_snoc hshape]
      simp only [htable, h.partitioned, h.shapes]
      cases hp : input.config.partitionedTables with
      | false => simp
      | true =>
          by_cases hmem : shape ∈ input.shapesOf log
          · simp [hmem]
          · simp [hmem]
    -- The table that is looked at is that of the object or another one.
    · by_cases htogether : m.objects.Together shape other
      · rw [hu.together other htogether] at hother
        obtain rfl := Option.some.inj hother
        rw [objectsOf_snoc_of_together hshape h htogether]
        exact (h.tableOrEmpty shape).intern hintern
      · rw [hu.apart other htogether] at hother
        rw [objectsOf_snoc_of_apart hshape h htogether]
        exact h.objects other u hother
  -- A shape without a table has no object in it.
  · have hsame : ((m.objects.table? shape).bind (·.get? id)).isNone =
        ((m.objects.tableOrEmpty input.registry shape).get? id).isNone := by
      rw [ObjectTables.tableOrEmpty]
      cases m.objects.table? shape <;> rfl
    obtain ⟨label, check, htable⟩ := h.tableOrEmpty shape
    rw [hsame, htable, UniqueTable.get?_counting_isNone, mem_objectsOf, hshape]
    simp

end Object

theorem setElementTag (h : Logged input log m) (id : NodeId) (tag : Tag) :
    Logged input log (m.setElementTag id tag) :=
  ⟨h.strings, h.arrays, h.tags, h.wellShaped, h.partitioned, h.shapes, h.objects⟩

end Logged

/-! ### The walk

The walk is a recursion over values, elements and fields, so there is a lemma for each, and each is
given that the walk below keeps records. The invariant of the walk (`Inv`) comes along, since it
tells which nodes are open and that a node that is gone into is new. -/

namespace WalkInput

variable {opened : List NodeId} {s s' : WalkState} {values : List Value} {value : Value}

/-- A walk of values, before which the values `log` were met, is recorded in the tables: what it
meets itself is a visit of the values, and the nodes it finishes are those that the visit closes. -/
def Records (input : WalkInput) (log values : List Value) (s s' : WalkState) : Prop :=
  ∃ visited opened closed, Visits (input.tree.slots input.registry) log values visited opened closed ∧
    Logged input (log ++ visited) s'.module ∧ s'.finished = closed.reverse ++ s.finished

/-- A walk of a value is recorded, whatever has been met before. -/
def Logs (input : WalkInput) (visit : Value → WalkState → Except Error WalkState)
    (opened : List NodeId) : Prop :=
  ∀ value log s s', visit value s = .ok s' → input.Inv opened s → input.Admits opened value →
    Logged input log s.module → input.Records log [value] s s'

theorem records_nil (h : Logged input log s.module) : input.Records log [] s s :=
  ⟨[], [], [], .nil, by simpa using h, rfl⟩

/-- What has been met before leads to no new node. -/
theorem records_known (hknown : ∀ id, value.node? = some id → value ∈ log)
    (hlogged : Logged input (log ++ [value]) s'.module) (hfinished : s'.finished = s.finished) :
    input.Records log [value] s s' :=
  ⟨[value], [], [], .skip hknown .nil, hlogged, hfinished⟩

/-- Values are walked one after another, each with the log of those before it. -/
theorem records_cons {t : WalkState} (h : input.Records log [value] s t)
    (hrest : ∀ visited, Logged input (log ++ visited) t.module →
      input.Records (log ++ visited) values t s') :
    input.Records log (value :: values) s s' := by
  obtain ⟨visited, opened, closed, hvisits, hlogged, hfinished⟩ := h
  obtain ⟨visited', opened', closed', hvisits', hlogged', hfinished'⟩ := hrest visited hlogged
  refine ⟨_, _, _, hvisits.cons hvisits', ?_, ?_⟩
  · rwa [← List.append_assoc]
  · rw [hfinished', hfinished, List.reverse_append, List.append_assoc]

/-- A new node is gone into: it is met first, then what it holds, and it is finished last. -/
theorem records_new {t : WalkState} (hnode : value.node? = some id) (hnew : value ∉ log)
    (h : input.Records (log ++ [value]) (input.tree.slots input.registry id) s t)
    (hlogged : ∀ log, Logged input log t.module → Logged input log s'.module)
    (hfinished : s'.finished = id :: t.finished) : input.Records log [value] s s' := by
  obtain ⟨visited, opened, closed, hvisits, hbelow, hclosed⟩ := h
  refine ⟨_, _, _, .single hnode hnew hvisits, ?_, ?_⟩
  · have hall := hlogged _ hbelow
    rwa [List.append_assoc] at hall
  · rw [hfinished, hclosed, List.reverse_append]
    rfl

/-- The elements of an array are recorded, by induction on the list. -/
theorem Logs.visitElements {visit : Value → WalkState → Except Error WalkState}
    (hwalks : input.Walks visit opened) (hvisit : input.Logs visit opened) {tags : List Tag}
    (h : input.visitElements visit values s = .ok (tags, s')) (hs : input.Inv opened s)
    (hvalues : ∀ value ∈ values, input.Admits opened value) (hlogged : Logged input log s.module) :
    input.Records log values s s' := by
  induction values generalizing s tags log with
  | nil =>
      simp only [WalkInput.visitElements, Except.ok.injEq, Prod.mk.injEq] at h
      obtain ⟨-, rfl⟩ := h
      exact records_nil hlogged
  | cons value values ih =>
      obtain ⟨t, hvalue, h₁⟩ := bind_eq_ok.mp h
      obtain ⟨tag, -, h₂⟩ := bind_eq_ok.mp h₁
      obtain ⟨⟨rest, u⟩, hrest, h₃⟩ := bind_eq_ok.mp h₂
      obtain ⟨-, rfl⟩ := Prod.mk.inj (Except.ok.inj h₃)
      have hadmits := hvalues value List.mem_cons_self
      obtain ⟨ht, -, -⟩ := hwalks _ _ _ hvalue hs hadmits
      exact records_cons (hvisit _ _ _ _ hvalue hs hadmits hlogged) fun visited hvisited =>
        ih hrest ht (fun v hv => hvalues v (List.mem_cons_of_mem _ hv)) hvisited

/-- The fields of an object are recorded, by induction on the list. Their checks touch no table. -/
theorem Logs.visitFields {visit : Value → WalkState → Except Error WalkState}
    (hwalks : input.Walks visit opened) (hvisit : input.Logs visit opened) {shape : String}
    {object : Object} {fields : List Field}
    (h : input.visitFields visit shape object fields s = .ok s') (hs : input.Inv opened s)
    (hvalues : ∀ field ∈ fields, input.Admits opened (object.get field.name))
    (hlogged : Logged input log s.module) :
    input.Records log (fields.map fun field => object.get field.name) s s' := by
  induction fields generalizing s log with
  | nil =>
      simp only [WalkInput.visitFields, Except.ok.injEq] at h
      exact h ▸ records_nil hlogged
  | cons field fields ih =>
      obtain ⟨_, -, h₁⟩ := bind_eq_ok.mp h
      obtain ⟨t, hvalue, h₂⟩ := bind_eq_ok.mp h₁
      have hadmits := hvalues field List.mem_cons_self
      obtain ⟨ht, -, -⟩ := hwalks _ _ _ hvalue hs hadmits
      exact records_cons (hvisit _ _ _ _ hvalue hs hadmits hlogged) fun visited hvisited =>
        ih h₂ ht (fun f hf => hvalues f (List.mem_cons_of_mem _ hf)) hvisited

/-- A value is recorded, if what is walked below it is. The cases are those of
`visited_of_visitValue`: what stands for itself, strings, and arrays and objects that are known or
new. -/
theorem Logs.visitValue {visit : Value → WalkState → Except Error WalkState}
    (hr : input.registry.Valid) (hwalks : ∀ id, input.Walks visit (id :: opened))
    (hvisit : ∀ id, input.Logs visit (id :: opened)) :
    input.Logs (input.visitValue visit) opened := by
  intro value log s s' h hs hid hlogged
  cases visited_of_visitValue h with
  | null | boolean _ | number _ =>
      exact records_known (by simp [Value.node?]) (hlogged.plain rfl rfl) rfl
  | string hm => exact records_known (by simp [Value.node?]) (hlogged.internString hm) rfl
  | knownArray helements hm =>
      obtain ⟨hlogged, hfresh⟩ := hlogged.registerArray hm
      -- Were the array not in the log, it would have been new to the table.
      exact records_known (fun _ _ => not_not.mp fun hnot => by simpa using hfresh.mpr hnot) hlogged rfl
  | @newArray id elements m tags tag t helements hm hwalk htag =>
      obtain ⟨hreg, hnew⟩ := hs.gathered.registerArray (by simp [helements]) hm
      obtain ⟨hlogged, hfresh⟩ := hlogged.registerArray hm
      have hslots : input.tree.slots input.registry id = elements := Tree.slots_of_array helements
      -- The node is open while its elements are walked, which is what makes the depth sufficient.
      have hbelow : input.Records (log ++ [.array id]) (input.tree.slots input.registry id)
          { s with module := m } t := by
        rw [hslots]
        exact (hvisit id).visitElements (hwalks id) hwalk (hs.open hid rfl hreg (hnew.mp rfl))
          (fun v hv => admits_slot hid rfl (hslots ▸ hv)) hlogged
      exact records_new rfl (hfresh.mp rfl) hbelow (fun _ hall => hall.setElementTag id tag) rfl
  | knownObject hshape hm =>
      obtain ⟨hlogged, hfresh⟩ := hlogged.registerObject hshape hr hm
      exact records_known (fun _ _ => not_not.mp fun hnot => by simpa using hfresh.mpr hnot) hlogged rfl
  | @newObject id object shape m t hobject hlookup hm hdeclared hwalk =>
      have hshape := Tree.shape?_eq_some_iff.mpr ⟨object, hobject, hlookup⟩
      obtain ⟨hreg, hnew⟩ := hs.gathered.registerObject hr hshape hm
      obtain ⟨hlogged, hfresh⟩ := hlogged.registerObject hshape hr hm
      have hslots := Tree.slots_of_object hobject hlookup
      have hbelow : input.Records (log ++ [.object id]) (input.tree.slots input.registry id)
          { s with module := m } t := by
        rw [hslots]
        exact (hvisit id).visitFields (hwalks id) hwalk (hs.open hid rfl hreg (hnew.mp rfl))
          (fun field hfield => admits_slot hid rfl (hslots ▸ List.mem_map_of_mem hfield)) hlogged
      exact records_new rfl (hfresh.mp rfl) hbelow (fun _ hall => hall) rfl

/-- The walk keeps records at every depth that suffices. Each node that is opened takes one from the
depth, and no more nodes can be open than there are. -/
theorem logs_visit (hr : input.registry.Valid) (depth : Nat)
    (hroom : input.tree.size < opened.length + depth) : input.Logs (input.visit depth) opened := by
  induction depth generalizing opened with
  | zero =>
      intro value log s s' _ hs
      have := hs.length_opened_le
      omega
  | succ depth ih =>
      refine Logs.visitValue hr (fun id => ?_) fun id => ih (by rw [List.length_cons]; omega)
      exact walks_visit hr depth (by rw [List.length_cons]; omega)

/-- The tables of a walk are a record of what it met, from the root on. -/
theorem exists_log (hr : input.registry.Valid) {postOrder : List NodeId}
    (h : input.walk = .ok (m, postOrder)) : ∃ log opened, Logged input log m ∧
      Visits (input.tree.slots input.registry) [] [input.tree.root] log opened postOrder := by
  obtain ⟨s, hs, h₁⟩ := bind_eq_ok.mp h
  obtain ⟨rfl, rfl⟩ := Prod.mk.inj (Except.ok.inj h₁)
  obtain ⟨log, opened, closed, hvisits, hlogged, hfinished⟩ := logs_visit hr (input.tree.size + 1)
    (by simp) _ _ _ _ hs (inv_empty input) (fun id hid => ⟨⟨id, hid, .refl⟩, by simp⟩)
    (logged_empty input)
  rw [List.append_nil] at hfinished
  refine ⟨log, opened, ⟨hlogged.strings, hlogged.arrays, hlogged.tags, hlogged.wellShaped,
    hlogged.partitioned, hlogged.shapes, hlogged.objects⟩, ?_⟩
  rwa [hfinished, List.reverse_reverse]

end WalkInput

end Module

end SyntaxPack
