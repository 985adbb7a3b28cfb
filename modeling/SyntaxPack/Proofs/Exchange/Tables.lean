import SyntaxPack.Module.Basic
import SyntaxPack.Proofs.Exchange.Slots
import SyntaxPack.Proofs.Table.Operations
/-!
# SyntaxPack.Proofs.Exchange.Tables

Modules that differ in the positions of shapes only.

The tables of strings, objects and arrays hold no positions, so they are the same on both
sides; only the tags are related, and the tables of objects stand under shapes that are.
Whatever fills the one module fills the other one. `Ensues` carries this along: a program
succeeds wherever another one does, with a result that is related.

Nothing is said of a program that fails. What is asked of the relation between shapes is that it is
one to one and that related shapes have one name: object tables are labelled by these names, tags
are added under them, and a tag is compared with the one that has its name already.
-/

namespace SyntaxPack

/-! ### Programs with related results

Both sides run the same steps on content that is related, so a proof about a program follows its
binds: a step that is the same program on both sides is passed over with `bind_same`, one
whose results are related with `bind`. -/

/-- Wherever one program succeeds, another one has a result that is related. -/
def Ensues {ε α β : Type} (R : α → β → Prop) (x : Except ε α) (y : Except ε β) : Prop :=
  ∀ a, x = .ok a → ∃ b, y = .ok b ∧ R a b

namespace Ensues

variable {ε ε' α β γ δ : Type} {R : α → β → Prop} {S : γ → δ → Prop} {x : Except ε α}
  {y : Except ε β}

theorem ok {a : α} {b : β} (h : R a b) : Ensues R (.ok a : Except ε α) (.ok b) := by
  intro a' ha'
  obtain rfl := Except.ok.inj ha'
  exact ⟨b, rfl, h⟩

/-- Nothing is said about a program that fails. -/
theorem error {e : ε} : Ensues R (.error e) y := by
  intro a ha
  simp at ha

/-- A program has the same result as itself, and failures are passed over. -/
theorem refl (x : Except ε α) : Ensues Eq x x := fun a ha => ⟨a, ha, rfl⟩

theorem bind {f : α → Except ε γ} {g : β → Except ε δ} (h : Ensues R x y)
    (hrest : ∀ a b, R a b → Ensues S (f a) (g b)) : Ensues S (x >>= f) (y >>= g) := by
  intro c hc
  obtain ⟨a, ha, hfa⟩ := bind_eq_ok.mp hc
  obtain ⟨b, hb, hab⟩ := h a ha
  obtain ⟨d, hd, hcd⟩ := hrest a b hab c hfa
  exact ⟨d, bind_eq_ok.mpr ⟨b, hb, hd⟩, hcd⟩

/-- After the same program, what it has returned may be used. -/
theorem bind_same {f : α → Except ε γ} {g : α → Except ε δ}
    (h : ∀ a, x = .ok a → Ensues S (f a) (g a)) : Ensues S (x >>= f) (x >>= g) := by
  intro c hc
  obtain ⟨a, ha, hfa⟩ := bind_eq_ok.mp hc
  obtain ⟨d, hd, hcd⟩ := h a ha c hfa
  exact ⟨d, bind_eq_ok.mpr ⟨a, ha, hd⟩, hcd⟩

theorem mapError {f : ε → ε'} (h : Ensues R x y) : Ensues R (x.mapError f) (y.mapError f) := by
  intro a ha
  obtain ⟨b, hb, hab⟩ := h a (mapError_eq_ok.mp ha)
  exact ⟨b, mapError_eq_ok.mpr hb, hab⟩

/-- Folds over corresponding items of two lists. -/
theorem foldlM {f : γ → α → Except ε γ} {g : δ → β → Except ε δ} {xs : List α} {ys : List β}
    (hlist : List.Forall₂ R xs ys)
    (h : ∀ x y, R x y → ∀ c d, S c d → Ensues S (f c x) (g d y)) {c : γ} {d : δ} (hcd : S c d) :
    Ensues S (xs.foldlM f c) (ys.foldlM g d) := by
  induction hlist generalizing c d with
  | nil => exact ok hcd
  | cons hxy _ ih =>
      rw [List.foldlM_cons, List.foldlM_cons]
      exact (h _ _ hxy c d hcd).bind fun _ _ hnext => ih hnext

end Ensues

/-- The same position changes in lists that are related. -/
theorem forall₂_modify {α β : Type} {r : α → β → Prop} {f : α → α} {g : β → β} {xs : List α}
    {ys : List β} (h : List.Forall₂ r xs ys) (hfg : ∀ x y, r x y → r (f x) (g y)) (i : Nat) :
    List.Forall₂ r (xs.modify i f) (ys.modify i g) := by
  induction h generalizing i with
  | nil => simp
  | cons hxy hrest ih =>
      cases i with
      | zero => exact .cons (hfg _ _ hxy) hrest
      | succ i => exact .cons hxy (ih i)

/-- What is made of the items of related lists at their positions is related. -/
theorem forall₂_mapIdx {α β γ δ : Type} {r : α → β → Prop} {q : γ → δ → Prop} {f : Nat → α → γ}
    {g : Nat → β → δ} {xs : List α} {ys : List β} (h : List.Forall₂ r xs ys)
    (hfg : ∀ i x y, r x y → q (f i x) (g i y)) : List.Forall₂ q (xs.mapIdx f) (ys.mapIdx g) := by
  induction h generalizing f g with
  | nil => exact .nil
  | cons hxy _ ih =>
      rw [List.mapIdx_cons, List.mapIdx_cons]
      exact .cons (hfg 0 _ _ hxy) (ih fun i => hfg (i + 1))

/-! ### Tables whose values are related

A table decides by names, handles and redirects, and of two values only whether they are equal. So
tables that differ in their values run alike as long as values are told apart on both sides alike,
which a relation that is one to one sees to. -/

variable {κ ν ν' : Type} {R : ν → ν' → Prop}

/-- Entries that differ in their values only. -/
structure Entry.Same (R : ν → ν' → Prop) (e : Entry κ ν) (e' : Entry κ ν') : Prop where
  name : e.name = e'.name
  value : R e.value e'.value
  index : e.index = e'.index
  hitCount : e.hitCount = e'.hitCount
  redirect : e.redirect = e'.redirect

/-- Tables that differ in the values of their entries only. -/
structure Table.Same (R : ν → ν' → Prop) (t : Table κ ν) (t' : Table κ ν') : Prop where
  label : t.label = t'.label
  checkDivergence : t.checkDivergence = t'.checkDivergence
  entries : List.Forall₂ (Entry.Same R) t.entries t'.entries
  order : t.order = t'.order

namespace Table.Same

variable {t : Table κ ν} {t' : Table κ ν'} (h : t.Same R t')
include h

theorem entryAt (i : Nat) : Option.Rel (Entry.Same R) t.entries[i]? t'.entries[i]? :=
  getElem?_rel_of_forall₂ h.entries i

/-- Handles are followed to the same entry: a redirect is a handle, and handles are the same on both
sides. -/
theorem resolve_eq (handle : Handle) : t.resolve handle = t'.resolve handle := by
  -- Only the redirects of entries are looked at, never their values.
  have hredirect : ∀ i : Nat, t.entries[i]?.bind (·.redirect) = t'.entries[i]?.bind (·.redirect) := by
    intro i
    have hentry := h.entryAt i
    generalize t.entries[i]? = e at hentry ⊢
    generalize t'.entries[i]? = e' at hentry ⊢
    cases hentry with
    | none => rfl
    | some hsame => exact hsame.redirect
  have hfollow : ∀ (steps : Nat) (handle : Handle),
      follow t.entries steps handle = follow t'.entries steps handle := by
    intro steps
    induction steps with
    | zero => exact fun _ => rfl
    | succ steps ih =>
        intro handle
        simp only [follow, hredirect, ih]
  rw [resolve, resolve, h.entries.length_eq, hfollow]

theorem entry? (handle : Handle) :
    Option.Rel (Entry.Same R) (t.entry? handle) (t'.entry? handle) := by
  rw [Table.entry?, Table.entry?, h.resolve_eq]
  exact h.entryAt _

theorem value? (handle : Handle) : Option.Rel R (t.value? handle) (t'.value? handle) := by
  have hentry := h.entry? handle
  rw [Table.value?, Table.value?]
  generalize t.entry? handle = e at hentry ⊢
  generalize t'.entry? handle = e' at hentry ⊢
  cases hentry with
  | none => exact .none
  | some hsame => exact .some hsame.value

theorem get?_eq [DecidableEq κ] (name : κ) : t.get? name = t'.get? name := by
  have hslot : t.slotOf? name = t'.slotOf? name := by
    rw [slotOf?, slotOf?, findIdx?_eq_of_forall₂ h.entries fun e e' he => by rw [he.name]]
  rw [get?, get?, hslot]
  exact congrArg (fun resolve => (t'.slotOf? name).map resolve) (funext h.resolve_eq)

theorem isFinalized_eq : t.isFinalized = t'.isFinalized := congrArg Option.isSome h.order

theorem indexed_eq : t.indexed = t'.indexed := by
  rw [indexed, indexed, h.order, h.label]

theorem size_eq : t.size = t'.size := by
  have hlive : ∀ (e : Entry κ ν) (e' : Entry κ ν'), e.Same R e' → e.isLive = e'.isLive :=
    fun e e' he => congrArg Option.isNone he.redirect
  rw [size, size, List.countP_eq_length_filter, List.countP_eq_length_filter]
  exact (forall₂_filter h.entries hlive).length_eq

/-- A name has the same index on both sides, or the same error: the error names the table and the
name, but no value. -/
theorem indexOf_eq [DecidableEq κ] [EntryName κ] (name : κ) : t.indexOf name = t'.indexOf name := by
  have hrequire : t.require name = t'.require name := by
    rw [require, require, h.get?_eq, h.label]
  have hindex : ∀ handle, t.indexAt handle = t'.indexAt handle := by
    intro handle
    have hentry := h.entry? handle
    simp only [indexAt, h.isFinalized_eq, h.label]
    generalize t.entry? handle = e at hentry ⊢
    generalize t'.entry? handle = e' at hentry ⊢
    cases hentry with
    | none => rfl
    | some hsame => simp only [hsame.index, hsame.name]
  rw [indexOf, indexOf, hrequire]
  exact congrArg (t'.require name >>= ·) (funext hindex)

theorem modify {f : Entry κ ν → Entry κ ν} {g : Entry κ ν' → Entry κ ν'}
    (hfg : ∀ e e', Entry.Same R e e' → Entry.Same R (f e) (g e')) (handle : Handle) :
    (t.modify handle f).Same R (t'.modify handle g) :=
  ⟨h.label, h.checkDivergence, forall₂_modify h.entries hfg _, h.order⟩

/-- Values that are told apart on both sides alike are added alike. -/
theorem add [DecidableEq κ] [DecidableEq ν] [DecidableEq ν'] [EntryName κ]
    (hR : Relator.BiUnique R) (name : κ) {value : ν} {value' : ν'} (hvalue : R value value') :
    Ensues (fun added added' => added.2.Same R added'.2) (t.add name value)
      (t'.add name value') := by
  simp only [Table.add, ensureBuilding, h.isFinalized_eq, h.get?_eq, h.label]
  refine (Ensues.refl _).bind fun _ _ _ => ?_
  cases t'.get? name with
  | none =>
      exact .ok ⟨rfl, h.checkDivergence,
        List.rel_append h.entries (.cons ⟨rfl, hvalue, rfl, rfl, rfl⟩ .nil), h.order⟩
  | some handle =>
      -- A second value for a name diverges from the first one on both sides or on neither.
      have hdiverges : (t.value? handle).any (· ≠ value) = (t'.value? handle).any (· ≠ value') := by
        have hfound := h.value? handle
        generalize t.value? handle = found at hfound ⊢
        generalize t'.value? handle = found' at hfound ⊢
        cases hfound with
        | none => rfl
        | some hfound => simpa using Relator.rel_eq hR hfound hvalue
      simp only [hdiverges, h.checkDivergence]
      split
      · exact .error
      · refine .ok (h.modify (f := fun e => { e with hitCount := e.hitCount + 1 })
          (g := fun e => { e with hitCount := e.hitCount + 1 }) (fun e e' he => ?_) handle)
        exact ⟨he.name, he.value, he.index, congrArg (· + 1) he.hitCount, he.redirect⟩

/-- The entries that are not merged away stand under the same handles. -/
theorem live : List.Forall₂ (fun p p' => p.1 = p'.1 ∧ Entry.Same R p.2 p'.2) t.live t'.live := by
  have hzip : ∀ {es : List (Entry κ ν)} {es' : List (Entry κ ν')} (i : Nat),
      List.Forall₂ (Entry.Same R) es es' →
      List.Forall₂ (fun p p' => Entry.Same R p.1 p'.1 ∧ p.2 = p'.2) (es.zipIdx i) (es'.zipIdx i) := by
    intro es es' i hes
    induction hes generalizing i with
    | nil => exact .nil
    | cons he _ ih => exact .cons ⟨he, rfl⟩ (ih (i + 1))
  rw [Table.live, Table.live, List.forall₂_map_left_iff, List.forall₂_map_right_iff]
  refine (forall₂_filter (hzip 0 h.entries) fun p p' hp => ?_).imp fun p p' hp => ?_
  · exact congrArg Option.isNone hp.1.redirect
  · exact ⟨congrArg Handle.mk hp.2, hp.1⟩

/-- Tables that keep the order of insertion are finalized alike. -/
theorem finalizeAll_insertion : (t.finalizeAll .insertion).Same R (t'.finalizeAll .insertion) := by
  -- Entries are listed by their handles, and no limit on uses applies to them.
  have horder : t.orderOf .insertion (fun _ => true) = t'.orderOf .insertion (fun _ => true) := by
    simp only [orderOf, List.filter_true]
    exact map_eq_of_forall₂ h.live fun _ _ hp => hp.1
  simp only [finalizeAll, finalize, ← h.order]
  cases t.order with
  | some order => exact h
  | none =>
      refine ⟨h.label, h.checkDivergence, ?_, congrArg some horder⟩
      rw [← horder]
      exact forall₂_mapIdx h.entries fun i e e' he =>
        ⟨he.name, he.value, rfl, he.hitCount, he.redirect⟩

end Table.Same

/-! ### Tables of objects

Which table an object goes to is decided by its shape. There is one table for each shape, or one for
all; in both cases the tables of related shapes stand at the same place in the two lists, and they
hold the same nodes, since the arena is the same one. -/

variable {rel : ShapeId → ShapeId → Prop} {registry registry' : Registry} {shape shape' : ShapeId}

/-- Tables of the same objects, for related shapes. -/
structure ObjectTable.Same (rel : ShapeId → ShapeId → Prop) (t t' : ObjectTable) : Prop where
  shape : Option.Rel rel t.shape t'.shape
  table : t.table = t'.table

/-- The tables are related one by one. -/
structure ObjectTables.Same (rel : ShapeId → ShapeId → Prop) (objects objects' : ObjectTables) :
    Prop where
  partitioned : objects.partitioned = objects'.partitioned
  checkDivergence : objects.checkDivergence = objects'.checkDivergence
  tables : List.Forall₂ (ObjectTable.Same rel) objects.tables objects'.tables

namespace ObjectTables

theorem Same.empty (partitioned checkDivergence : Bool) :
    Same rel (.empty partitioned checkDivergence) (.empty partitioned checkDivergence) := by
  refine ⟨rfl, rfl, ?_⟩
  cases partitioned with
  | true => exact .nil
  | false => exact .cons ⟨.none, rfl⟩ .nil

variable {objects objects' : ObjectTables} (h : objects.Same rel objects')
  (hrel : Relator.BiUnique rel) (hshape : rel shape shape')
include h hrel hshape

theorem Same.holds_eq {t t' : ObjectTable} (ht : t.Same rel t') :
    objects.holds shape t = objects'.holds shape' t' := by
  have hfound := ht.shape
  rw [holds, holds, h.partitioned]
  generalize t.shape = found at hfound ⊢
  generalize t'.shape = found' at hfound ⊢
  cases hfound with
  | none => simp
  | some hfound => simp [Relator.rel_eq hrel hfound hshape]

/-- The objects of related shapes are in the same table. -/
theorem Same.table?_eq : objects.table? shape = objects'.table? shape' := by
  have hfind := find?_of_forall₂ h.tables fun _ _ => h.holds_eq hrel hshape
  rw [table?, table?]
  generalize objects.tables.find? _ = t at hfind ⊢
  generalize objects'.tables.find? _ = t' at hfind ⊢
  cases hfind with
  | none => rfl
  | some ht => exact congrArg some ht.table

theorem Same.setTable (table : UniqueTable NodeId) :
    (objects.setTable shape table).Same rel (objects'.setTable shape' table) := by
  have hslot := findIdx?_eq_of_forall₂ h.tables fun _ _ => h.holds_eq hrel hshape
  simp only [ObjectTables.setTable, hslot]
  cases objects'.tables.findIdx? (objects'.holds shape') with
  | none => exact h
  | some slot =>
      have hmodified := forall₂_modify (f := fun t => { t with table := table })
        (g := fun t => { t with table := table }) h.tables (fun _ _ ht => ⟨ht.shape, rfl⟩) slot
      exact ⟨h.partitioned, h.checkDivergence, hmodified⟩

variable (hnames : ∀ id id', rel id id' → registry.shapeName id = registry'.shapeName id')
include hnames

/-- A table that is set up for a shape has the name of the shape in its label, and related shapes
have one name. -/
theorem Same.ensureTable :
    (objects.ensureTable registry shape).Same rel (objects'.ensureTable registry' shape') := by
  simp only [ObjectTables.ensureTable, h.table?_eq hrel hshape, hnames _ _ hshape]
  split
  · exact h
  · exact ⟨h.partitioned, h.checkDivergence,
      List.rel_append h.tables (.cons ⟨.some hshape, by rw [h.checkDivergence]⟩ .nil)⟩

/-- A change of the table of a shape that succeeds leaves tables that are related. -/
theorem Same.update (f : UniqueTable NodeId → Except TableError (UniqueTable NodeId)) :
    Ensues (Same rel) (objects.update registry shape f) (objects'.update registry' shape' f) := by
  have hensured := h.ensureTable hrel hshape hnames
  simp only [ObjectTables.update, hensured.table?_eq hrel hshape]
  split
  · refine (Ensues.refl _).bind fun table table' htable => ?_
    exact .ok (htable ▸ hensured.setTable hrel hshape table)
  · exact .ok hensured

end ObjectTables

/-! ### Modules

A module is filled by a few operations, and each of them keeps two modules related. The tags are the
only part whose values are related and not equal, and the positions of shapes are looked up in
`shapeTags` only. -/

/-- Modules of the same content. -/
structure Module.Same (rel : ShapeId → ShapeId → Prop) (m m' : Module) : Prop where
  tags : m.tags.Same (Tag.Same rel) m'.tags
  strings : m.strings = m'.strings
  objects : m.objects.Same rel m'.objects
  arrays : m.arrays = m'.arrays
  elementTags : List.Forall₂ (fun p p' => p.1 = p'.1 ∧ p.2.Same rel p'.2) m.elementTags m'.elementTags
  root : m.root = m'.root
  shapeTags : List.Forall₂ (fun p p' => rel p.1 p'.1 ∧ p.2 = p'.2) m.shapeTags m'.shapeTags

/-- Equal keys have related values in lists of pairs. -/
theorem lookup_of_forall₂ {α β γ δ : Type} [DecidableEq α] [DecidableEq β] {r : α → β → Prop}
    {q : γ → δ → Prop} (hr : Relator.BiUnique r) {xs : List (α × γ)} {ys : List (β × δ)}
    (h : List.Forall₂ (fun p p' => r p.1 p'.1 ∧ q p.2 p'.2) xs ys) {a : α} {b : β} (hab : r a b) :
    Option.Rel q (xs.lookup a) (ys.lookup b) := by
  induction h with
  | nil => exact .none
  | @cons p p' _ _ hp _ ih =>
      have hkey : (a == p.1) = (b == p'.1) := by
        rw [Bool.eq_iff_iff, beq_iff_eq, beq_iff_eq]
        exact Relator.rel_eq hr hab hp.1
      rw [List.lookup_cons, List.lookup_cons, hkey]
      split
      · exact .some hp.2
      · exact ih

theorem Tag.biUnique_same (hrel : Relator.BiUnique rel) : Relator.BiUnique (Tag.Same rel) :=
  ⟨fun _ _ _ h h' => (h.eq_iff hrel h').mpr rfl, fun _ _ _ h h' => (h.eq_iff hrel h').mp rfl⟩

namespace Module

theorem Same.empty (config : EncodingConfig) : Same rel (.empty config) (.empty config) where
  tags := ⟨rfl, rfl, by
    refine List.forall₂_same.mpr fun e he => ?_
    obtain ⟨b, -, rfl⟩ := List.mem_map.mp he
    exact ⟨rfl, .builtin b, rfl, rfl, rfl⟩, rfl⟩
  strings := rfl
  objects := .empty _ _
  arrays := rfl
  elementTags := .nil
  root := rfl
  shapeTags := .nil

variable {m m' : Module} (h : m.Same rel m')
include h

theorem Same.internString (s : String) : Ensues (Same rel) (m.internString s) (m'.internString s) := by
  simp only [Module.internString, h.strings]
  refine (Ensues.refl _).bind fun added added' hadded => ?_
  exact .ok { h with strings := congrArg Prod.snd hadded }

theorem Same.registerArray (id : NodeId) :
    Ensues (fun found found' => found.1 = found'.1 ∧ found.2.Same rel found'.2)
      (m.registerArray id) (m'.registerArray id) := by
  simp only [Module.registerArray, h.arrays]
  refine (Ensues.refl _).bind fun added added' hadded => ?_
  exact .ok ⟨rfl, { h with arrays := congrArg Prod.snd hadded }⟩

theorem Same.setElementTag (id : NodeId) {tag tag' : Tag} (htag : tag.Same rel tag') :
    (m.setElementTag id tag).Same rel (m'.setElementTag id tag') :=
  { h with elementTags := .cons ⟨rfl, htag⟩ h.elementTags }

theorem Same.elementTag? (id : NodeId) :
    Option.Rel (Tag.Same rel) (m.elementTag? id) (m'.elementTag? id) :=
  lookup_of_forall₂ ⟨fun _ _ _ h h' => h.trans h'.symm, fun _ _ _ h h' => h.symm.trans h'⟩
    h.elementTags rfl

theorem Same.dedupeArray (source target : NodeId) :
    Ensues (Same rel) (m.dedupeArray source target) (m'.dedupeArray source target) := by
  simp only [Module.dedupeArray, h.arrays]
  exact (Ensues.refl _).bind fun arrays arrays' harrays => .ok { h with arrays := harrays }

variable (hrel : Relator.BiUnique rel) (hshape : rel shape shape')
  (hnames : ∀ id id', rel id id' → registry.shapeName id = registry'.shapeName id')
include hrel hshape hnames

theorem Same.registerObject (id : NodeId) :
    Ensues (fun found found' => found.1 = found'.1 ∧ found.2.Same rel found'.2)
      (m.registerObject registry shape id) (m'.registerObject registry' shape' id) := by
  have hname : registry.tagName (.shape shape) = registry'.tagName (.shape shape') :=
    hnames _ _ hshape
  simp only [Module.registerObject, hname, h.objects.table?_eq hrel hshape]
  refine (h.tags.add (Tag.biUnique_same hrel) _ (.shape hshape)).bind fun added added' hadded => ?_
  refine (h.objects.update hrel hshape hnames _).bind fun objects objects' hobjects => ?_
  exact .ok ⟨rfl, { h with tags := hadded, objects := hobjects }⟩

theorem Same.dedupeObject (source target : NodeId) :
    Ensues (Same rel) (m.dedupeObject registry shape source target)
      (m'.dedupeObject registry' shape' source target) :=
  (h.objects.update hrel hshape hnames _).bind fun _ _ hobjects => .ok { h with objects := hobjects }

omit hshape

omit hrel hnames in
/-- Finalization lists both modules in one order: it goes by the handles of entries and by the
counts of their uses, which are the same, and never by a position of a shape. -/
theorem Same.finalize (ordering : TableOrdering) (limit : Option Nat) :
    (m.finalize ordering limit).Same rel (m'.finalize ordering limit) := by
  have htags := h.tags.finalizeAll_insertion
  refine ⟨htags, congrArg (·.finalizeAll ordering) h.strings,
    ⟨h.objects.partitioned, h.objects.checkDivergence, ?_⟩,
    congrArg (·.finalizeAll ordering) h.arrays, h.elementTags, h.root, ?_⟩
  · simp only [Module.finalize, List.forall₂_map_left_iff, List.forall₂_map_right_iff]
    exact h.objects.tables.imp fun t t' ht => ⟨ht.shape, by rw [ht.table]⟩
  · refine List.rel_filterMap (fun p p' hp => ?_) htags.live
    obtain ⟨-, he⟩ := hp
    have hvalue := he.value
    simp only [he.index]
    generalize p.2.value = tag at hvalue ⊢
    generalize p'.2.value = tag' at hvalue ⊢
    cases hvalue with
    | builtin b => exact .none
    | shape hid =>
        cases p'.2.index with
        | none => exact .none
        | some index => exact .some ⟨hid, rfl⟩

/-- A tag has the same index on both sides. -/
theorem Same.tagIndex_eq {tag tag' : Tag} (htag : tag.Same rel tag') :
    m.tagIndex registry tag = m'.tagIndex registry' tag' := by
  cases htag with
  | builtin b => rfl
  | shape hid =>
      have hfound := lookup_of_forall₂ hrel h.shapeTags hid
      simp only [tagIndex, Registry.tagName, hnames _ _ hid, h.tags.indexOf_eq]
      generalize m.shapeTags.lookup _ = found at hfound ⊢
      generalize m'.shapeTags.lookup _ = found' at hfound ⊢
      cases hfound with
      | none => rfl
      | some hindex => exact congrArg Except.ok hindex

end Module

end SyntaxPack
