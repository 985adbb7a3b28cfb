import Mathlib.Algebra.Ring.Nat
import Mathlib.Data.List.Nodup
import SyntaxPack.Module.Basic
import SyntaxPack.Proofs.Monad
/-!
# SyntaxPack.Proofs.Encode.Objects

Object tables as a function from shapes to tables.

Shared or partitioned, the table of a shape is all that the encoder works with.
`Together` says for which shapes it is the same one; changing the table of a shape
changes it for these and for no others.
-/

namespace SyntaxPack

namespace ObjectTables

variable {objects objects' : ObjectTables} {shape other : ShapeId} {t u : UniqueTable NodeId}

/-- The objects of two shapes stand in one table. -/
def Together (objects : ObjectTables) (a b : ShapeId) : Prop :=
  objects.partitioned = false ∨ a = b

instance (objects : ObjectTables) (a b : ShapeId) : Decidable (objects.Together a b) :=
  inferInstanceAs (Decidable (_ ∨ _))

theorem Together.symm {objects : ObjectTables} {a b : ShapeId} (h : objects.Together a b) :
    objects.Together b a := h.imp_right Eq.symm

theorem Together.trans {objects : ObjectTables} {a b c : ShapeId} (h : objects.Together a b)
    (h' : objects.Together b c) : objects.Together a c := by
  rcases h with hshared | rfl
  · exact Or.inl hshared
  · exact h'

/-- There is one table for all shapes, or there are tables for different shapes. -/
structure WellShaped (objects : ObjectTables) : Prop where
  shared : objects.partitioned = false → ∃ t, objects.tables = [⟨none, t⟩]
  nodup : objects.partitioned = true → (objects.tables.map (·.shape)).Nodup
  shape_ne : objects.partitioned = true → ∀ table ∈ objects.tables, table.shape ≠ none

theorem wellShaped_empty (partitioned checkDivergence : Bool) :
    (empty partitioned checkDivergence).WellShaped := by
  cases partitioned with
  | true =>
      refine ⟨?_, ?_, ?_⟩
      · simp [empty]
      · simp [empty]
      · simp [empty]
  | false =>
      refine ⟨?_, ?_, ?_⟩
      · simp [empty]
      · simp [empty]
      · simp [empty]

/-! ### The table of a shape

With partitioned tables the shapes tell the tables apart; with a shared table there is one that
every shape leads to. Both are answers of `table?`, and what follows speaks of these only. -/

/-- A partitioned table is found under its shape. -/
theorem WellShaped.table?_eq_some_iff (hw : objects.WellShaped) (hp : objects.partitioned = true) :
    objects.table? shape = some t ↔ ⟨some shape, t⟩ ∈ objects.tables := by
  simp only [table?, Option.map_eq_some_iff]
  constructor
  · rintro ⟨table, hfind, rfl⟩
    have hshape : table.shape = some shape := by
      simpa [holds, hp] using List.find?_some hfind
    exact hshape ▸ List.mem_of_find?_eq_some hfind
  · intro hmem
    cases hfind : objects.tables.find? (objects.holds shape) with
    | none =>
        rw [List.find?_eq_none] at hfind
        exact absurd (by simp [holds]) (hfind _ hmem)
    | some table =>
        have hshape : table.shape = some shape := by
          simpa [holds, hp] using List.find?_some hfind
        have hsame := List.inj_on_of_nodup_map (hw.nodup hp) (List.mem_of_find?_eq_some hfind) hmem
          (by simp [hshape])
        exact ⟨table, rfl, by rw [hsame]⟩

/-- The shared table is found under every shape. -/
theorem table?_of_shared (hp : objects.partitioned = false) {table : ObjectTable}
    (htables : objects.tables = [table]) : objects.table? shape = some table.table := by
  simp [table?, htables, holds, hp]

/-- Every table is the table of a shape. -/
theorem WellShaped.exists_table? (hw : objects.WellShaped) {table : ObjectTable}
    (h : table ∈ objects.tables) : ∃ shape, objects.table? shape = some table.table ∧
      (objects.partitioned = true → table.shape = some shape) := by
  cases hp : objects.partitioned with
  | true =>
      obtain ⟨shape, hshape⟩ := Option.ne_none_iff_exists'.mp (hw.shape_ne hp table h)
      exact ⟨shape, (hw.table?_eq_some_iff hp).mpr (hshape ▸ h), fun _ => hshape⟩
  | false =>
      obtain ⟨t, htables⟩ := hw.shared hp
      rw [htables, List.mem_singleton] at h
      exact ⟨⟨0⟩, h ▸ table?_of_shared hp htables, by simp⟩

/-- The table of a shape is one of the tables. -/
theorem exists_mem_of_table? (h : objects.table? shape = some t) :
    ∃ table ∈ objects.tables, objects.holds shape table = true ∧ table.table = t := by
  obtain ⟨table, hfind, rfl⟩ := Option.map_eq_some_iff.mp h
  exact ⟨table, List.mem_of_find?_eq_some hfind, List.find?_some hfind, rfl⟩

theorem table?_congr (h : objects.Together shape other) :
    objects.table? shape = objects.table? other := by
  rcases h with hp | rfl
  · have hholds : objects.holds shape = objects.holds other := by
      funext table
      simp [holds, hp]
    rw [table?, table?, hholds]
  · rfl

/-! ### Changing a table

A change goes to the table of a shape, which is set up first if need be. `Updated` says what it
comes to without the list of tables: the shapes that stand together with this one have the changed
table, the others have the table that they had. -/

/-- The table of a shape, or the one that is set up for it. -/
def tableOrEmpty (objects : ObjectTables) (registry : Registry) (shape : ShapeId) :
    UniqueTable NodeId :=
  (objects.table? shape).getD
    (.empty (labelOf (registry.shapeName shape)) objects.checkDivergence)

/-- What changing the table of a shape does, seen from the shapes: those that stand together with it
have the new table, all others keep theirs. -/
structure Updated (objects : ObjectTables) (shape : ShapeId) (t : UniqueTable NodeId)
    (objects' : ObjectTables) : Prop where
  wellShaped : objects'.WellShaped
  partitioned : objects'.partitioned = objects.partitioned
  checkDivergence : objects'.checkDivergence = objects.checkDivergence
  together : ∀ other, objects.Together shape other → objects'.table? other = some t
  apart : ∀ other, ¬ objects.Together shape other → objects'.table? other = objects.table? other

/-- A property of all tables is kept if the changed table has it. -/
theorem Updated.forall_table {p : UniqueTable NodeId → Prop} {t : UniqueTable NodeId}
    (h : objects.Updated shape t objects') (hnew : p t)
    (hold : ∀ other u, objects.table? other = some u → p u) :
    ∀ other u, objects'.table? other = some u → p u := by
  intro other u hother
  by_cases htogether : objects.Together shape other
  · obtain rfl := Option.some.inj ((h.together other htogether).symm.trans hother)
    exact hnew
  · exact hold other u (h.apart other htogether ▸ hother)

theorem Updated.together_iff {t : UniqueTable NodeId} (h : objects.Updated shape t objects')
    {a b : ShapeId} : objects'.Together a b ↔ objects.Together a b := by
  rw [Together, Together, h.partitioned]

/-- The tables of other shapes around one of a shape. -/
structure Split (objects : ObjectTables) (shape : ShapeId) (before after : List ObjectTable) :
    Prop where
  partitioned : objects.partitioned = true
  shape_ne : ∀ table ∈ before ++ after, table.shape ≠ some shape
  nodup : ((before ++ after).map (·.shape)).Nodup
  shape_some : ∀ table ∈ before ++ after, table.shape ≠ none
  mem_iff : ∀ table, table.shape ≠ some shape →
    (table ∈ objects.tables ↔ table ∈ before ++ after)

/-- With partitioned tables, the table of a shape stands between the others once it is
set up. -/
theorem WellShaped.exists_split (hw : objects.WellShaped) (hp : objects.partitioned = true)
    (registry : Registry) (shape : ShapeId) : ∃ before after, objects.Split shape before after ∧
      objects.ensureTable registry shape = { objects with
        tables := before ++ ⟨some shape, objects.tableOrEmpty registry shape⟩ :: after } := by
  have hnone := hw.shape_ne hp
  have hnodup := hw.nodup hp
  cases ht : objects.table? shape with
  | some t =>
      obtain ⟨before, after, htables⟩ := List.append_of_mem ((hw.table?_eq_some_iff hp).mp ht)
      have hmem : ∀ table, table.shape ≠ some shape →
          (table ∈ objects.tables ↔ table ∈ before ++ after) := by
        intro table hshape
        have hne : table ≠ ⟨some shape, t⟩ := by
          rintro rfl
          exact hshape rfl
        simp [htables, hne]
      rw [htables, List.map_append, List.map_cons, List.nodup_middle, List.nodup_cons,
        ← List.map_append] at hnodup
      have hne : ∀ table ∈ before ++ after, table.shape ≠ some shape := by
        intro table htable hshape
        exact hnodup.1 (hshape ▸ List.mem_map_of_mem (f := (·.shape)) htable)
      refine ⟨before, after, ⟨hp, hne, hnodup.2, fun table htable => ?_, hmem⟩, ?_⟩
      · exact hnone table ((hmem table (hne table htable)).mpr htable)
      · simp [ensureTable, ht, tableOrEmpty, ← htables]
  | none =>
      have hne : ∀ table ∈ objects.tables, table.shape ≠ some shape := by
        rintro ⟨_, t⟩ htable rfl
        have := (hw.table?_eq_some_iff hp).mpr htable
        simp [ht] at this
      refine ⟨objects.tables, [], ⟨hp, ?_, ?_, ?_, fun table _ => ?_⟩, ?_⟩
      · simpa using hne
      · simpa using hnodup
      · simpa using hnone
      · simp
      · simp [ensureTable, ht, tableOrEmpty]

section Split

variable {before after : List ObjectTable}

theorem Split.wellShaped (h : objects.Split shape before after) :
    WellShaped { objects with tables := before ++ ⟨some shape, t⟩ :: after } := by
  refine ⟨fun hp => by simp [h.partitioned] at hp, fun _ => ?_, fun _ table htable => ?_⟩
  · rw [List.map_append, List.map_cons, List.nodup_middle, List.nodup_cons, ← List.map_append]
    refine ⟨fun hmem => ?_, h.nodup⟩
    obtain ⟨table, htable, hshape⟩ := List.mem_map.mp hmem
    exact h.shape_ne table htable hshape
  · rcases List.mem_append.mp htable with hb | ha
    · exact h.shape_some table (List.mem_append_left _ hb)
    · rcases List.mem_cons.mp ha with rfl | ha
      · simp
      · exact h.shape_some table (List.mem_append_right _ ha)

theorem Split.table?_self (h : objects.Split shape before after) :
    table? { objects with tables := before ++ ⟨some shape, t⟩ :: after } shape = some t :=
  (h.wellShaped.table?_eq_some_iff h.partitioned).mpr (by simp)

theorem Split.table?_other (h : objects.Split shape before after) (hw : objects.WellShaped)
    (hne : shape ≠ other) :
    table? { objects with tables := before ++ ⟨some shape, t⟩ :: after } other =
      objects.table? other := by
  refine Option.ext fun u => ?_
  rw [h.wellShaped.table?_eq_some_iff h.partitioned, hw.table?_eq_some_iff h.partitioned,
    h.mem_iff ⟨some other, u⟩ (by simpa [eq_comm] using hne)]
  simp [Ne.symm hne]

theorem Split.setTable (h : objects.Split shape before after) :
    ObjectTables.setTable { objects with tables := before ++ ⟨some shape, u⟩ :: after } shape t =
      { objects with tables := before ++ ⟨some shape, t⟩ :: after } := by
  have hfind : (before ++ ⟨some shape, u⟩ :: after).findIdx?
      (holds { objects with tables := before ++ ⟨some shape, u⟩ :: after } shape) =
        some before.length := by
    rw [List.findIdx?_eq_some_iff_getElem]
    refine ⟨by simp, by simp [holds], fun i hi => ?_⟩
    rw [List.getElem_append_left hi]
    simpa [holds, h.partitioned] using
      h.shape_ne _ (List.mem_append_left _ (List.getElem_mem hi))
  have hmodify : (before ++ ⟨some shape, u⟩ :: after).modify before.length
      (fun table : ObjectTable => { table with table := t }) = before ++ ⟨some shape, t⟩ :: after := by
    rw [List.modify_eq_take_cons_drop (by simp)]
    simp
  simp only [ObjectTables.setTable, hfind, hmodify]

end Split

/-- Changing the table of a shape. -/
theorem WellShaped.updated (hw : objects.WellShaped) {registry : Registry}
    {f : UniqueTable NodeId → Except TableError (UniqueTable NodeId)}
    (h : objects.update registry shape f = .ok objects') :
    ∃ t, f (objects.tableOrEmpty registry shape) = .ok t ∧ objects.Updated shape t objects' := by
  cases hp : objects.partitioned with
  | false =>
      obtain ⟨t₀, htables⟩ := hw.shared hp
      have htable : ∀ other, objects.table? other = some t₀ := fun other =>
        table?_of_shared hp htables
      have hensure : objects.ensureTable registry shape = objects := by
        simp [ensureTable, htable]
      simp only [update, hensure, htable] at h
      obtain ⟨t, ht, h₁⟩ := bind_eq_ok.mp h
      simp only [Except.ok.injEq] at h₁
      have hset : objects' = { objects with tables := [⟨none, t⟩] } := by
        rw [← h₁, setTable, htables]
        simp [holds, hp]
      subst hset
      refine ⟨t, by simpa [tableOrEmpty, htable] using ht, ⟨?_, rfl, rfl, ?_, ?_⟩⟩
      · exact ⟨fun _ => ⟨t, rfl⟩, fun h => by simp [hp] at h, fun h => by simp [hp] at h⟩
      · intro other _
        simp [table?, holds, hp]
      · exact fun other hapart => absurd (Or.inl hp) hapart
  | true =>
      obtain ⟨before, after, hsplit, hensure⟩ := hw.exists_split hp registry shape
      simp only [update, hensure, hsplit.table?_self] at h
      obtain ⟨t, ht, h₁⟩ := bind_eq_ok.mp h
      simp only [Except.ok.injEq] at h₁
      rw [hsplit.setTable] at h₁
      subst h₁
      refine ⟨t, ht, hsplit.wellShaped, rfl, rfl, fun other htogether => ?_, fun other hapart => ?_⟩
      · obtain rfl : shape = other := by simpa [Together, hp] using htogether
        exact hsplit.table?_self
      · exact hsplit.table?_other hw fun heq => hapart (Or.inr heq)

/-! ### Counting entries

The number of live entries in all tables is what deduplication brings down, and it changes with the
one table that is changed. -/

/-- The number of live entries in all tables. -/
def size (objects : ObjectTables) : Nat := (objects.tables.map (·.table.size)).sum

theorem sum_map_modify {α : Type} {l : List α} {i : Nat} {a : α} (f : α → Nat) (g : α → α)
    (h : l[i]? = some a) : ((l.modify i g).map f).sum + f a = (l.map f).sum + f (g a) := by
  induction l generalizing i with
  | nil => simp at h
  | cons b l ih =>
      cases i with
      | zero =>
          obtain rfl : b = a := by simpa using h
          simp only [List.modify_zero_cons, List.map_cons, List.sum_cons]
          omega
      | succ i =>
          have hl := ih (i := i) (by simpa using h)
          simp only [List.modify_succ_cons, List.map_cons, List.sum_cons]
          omega

/-- The entries that a table loses or gains are lost or gained. -/
theorem size_setTable (h : objects.table? shape = some t) :
    (objects.setTable shape u).size + t.size = objects.size + u.size := by
  obtain ⟨table, hfind, rfl⟩ := Option.map_eq_some_iff.mp h
  obtain ⟨hholds, i, hi, rfl, hbefore⟩ := List.find?_eq_some_iff_getElem.mp hfind
  have hslot : objects.tables.findIdx? (objects.holds shape) = some i :=
    List.findIdx?_eq_some_iff_getElem.mpr ⟨hi, hholds, fun j hj => by simpa using hbefore j hj⟩
  rw [setTable, hslot]
  exact sum_map_modify (·.table.size) _ (List.getElem?_eq_getElem hi)

/-- Changing a table that is there changes no other one. -/
theorem update_eq_ok {registry : Registry}
    {f : UniqueTable NodeId → Except TableError (UniqueTable NodeId)}
    (ht : objects.table? shape = some t) (h : objects.update registry shape f = .ok objects') :
    ∃ u, f t = .ok u ∧ objects' = objects.setTable shape u := by
  have hensure : objects.ensureTable registry shape = objects := by
    rw [ensureTable, ht]
    rfl
  simp only [update, hensure, ht] at h
  obtain ⟨u, hu, h₁⟩ := bind_eq_ok.mp h
  exact ⟨u, hu, (Except.ok.inj h₁).symm⟩

/-! ### Finalization

Finalization changes every table on its own and moves none of them. -/

/-- Changing every table changes the table of every shape. -/
theorem table?_map (f : ObjectTable → ObjectTable) (hf : ∀ table, (f table).shape = table.shape)
    (g : UniqueTable NodeId → UniqueTable NodeId) (hg : ∀ table, (f table).table = g table.table) :
    table? { objects with tables := objects.tables.map f } shape =
      (objects.table? shape).map g := by
  simp only [table?, List.find?_map, Option.map_map]
  have hholds : holds { objects with tables := objects.tables.map f } shape ∘ f =
      objects.holds shape := by
    funext table
    simp [holds, hf]
  rw [hholds]
  cases objects.tables.find? (objects.holds shape) with
  | none => rfl
  | some table => simp [hg]

theorem WellShaped.map (hw : objects.WellShaped) (f : ObjectTable → ObjectTable)
    (hf : ∀ table, (f table).shape = table.shape) :
    WellShaped { objects with tables := objects.tables.map f } := by
  refine ⟨fun hp => ?_, fun hp => ?_, fun hp table htable => ?_⟩
  · obtain ⟨t, ht⟩ := hw.shared hp
    refine ⟨(f ⟨none, t⟩).table, ?_⟩
    have hshape := hf ⟨none, t⟩
    simp only [ht, List.map_cons, List.map_nil, List.cons.injEq, and_true]
    cases hf' : f ⟨none, t⟩
    simp_all
  · have hshapes : (objects.tables.map f).map (·.shape) = objects.tables.map (·.shape) := by
      simp [hf]
    rw [hshapes]
    exact hw.nodup hp
  · obtain ⟨old, hold, rfl⟩ := List.mem_map.mp htable
    rw [hf]
    exact hw.shape_ne hp old hold

end ObjectTables

end SyntaxPack
