import SyntaxPack.Proofs.Table.Operations
/-!
# SyntaxPack.Proofs.Table.Unique

Unique tables as functions on names.

The values of a unique table are its names, so all that can be seen of it while it
is built is which names it has and which of them survives for each: `rep`. A valid
table is *plain* as long as nothing was merged in it, that is, as long as every name
survives as itself.
-/

namespace SyntaxPack

namespace UniqueTable

variable {κ : Type} {t t' : UniqueTable κ} {x y : κ} {a b : Handle}

/-- A well-formed table in which values are their own names. -/
structure Valid (t : UniqueTable κ) : Prop where
  wellFormed : t.WellFormed
  values : t.entries.map (·.value) = t.names

/-- The entry at a handle was not merged and has a name. -/
structure LiveAt (t : UniqueTable κ) (a : Handle) (x : κ) : Prop where
  live : t.IsLive a
  name : t.names[a.slot]? = some x

theorem LiveAt.name_inj (hx : t.LiveAt a x) (hy : t.LiveAt a y) : x = y :=
  Option.some.inj (hx.name.symm.trans hy.name)

theorem LiveAt.mem (h : t.LiveAt a x) : x ∈ t.names := List.mem_of_getElem? h.name

theorem Valid.value?_eq (hv : t.Valid) (h : t.LiveAt a x) : t.value? a = some x := by
  rw [Table.value?, Table.entry?, h.live.resolve_eq, ← List.getElem?_map, hv.values, h.name]

theorem Valid.names_nodup (hv : t.Valid) : t.names.Nodup := hv.wellFormed.names_nodup

theorem valid_of_sameEntries (h : t.SameEntries t') (hv : t.Valid) : t'.Valid :=
  ⟨h.wellFormed hv.wellFormed, by rw [h.values, h.names, hv.values]⟩

theorem valid_empty (label : String) (checkDivergence : Bool) :
    Valid (.empty label checkDivergence : UniqueTable κ) :=
  ⟨⟨by simp [Table.empty], fun a ha => absurd ha (Nat.not_lt_zero _)⟩, rfl⟩

theorem names_empty (label : String) (checkDivergence : Bool) :
    (.empty label checkDivergence : UniqueTable κ).names = [] := rfl

section Names

variable [DecidableEq κ]

/-- The name of the entry that survives for a name. -/
def rep (t : UniqueTable κ) (x : κ) : Option κ := (t.get? x).bind t.value?

/-- Nothing was merged. -/
def Plain (t : UniqueTable κ) : Prop := ∀ x ∈ t.names, t.rep x = some x

theorem Valid.get?_eq (hv : t.Valid) (h : t.LiveAt a x) : t.get? x = some a := by
  have hname := h.name
  simp only [Table.names, List.getElem?_map, Option.map_eq_some_iff] at hname
  obtain ⟨entry, hentry, hname⟩ := hname
  exact hv.wellFormed.get?_eq_some_iff.mpr ⟨a, entry, hentry, hname, h.live.resolve_eq⟩

theorem Valid.rep_eq (hv : t.Valid) (h : t.LiveAt a x) : t.rep x = some x := by
  rw [rep, hv.get?_eq h, Option.bind_some, hv.value?_eq h]

/-- What a name reaches is the entry of the name that survives for it. -/
theorem Valid.liveAt (hv : t.Valid) (h : t.get? x = some a) :
    ∃ y, t.LiveAt a y ∧ t.rep x = some y := by
  have hlive := hv.wellFormed.get?_live h
  have hlt : a.slot < t.names.length := by simpa [Table.names] using hlive.lt
  have hat : t.LiveAt a t.names[a.slot] := ⟨hlive, List.getElem?_eq_getElem hlt⟩
  exact ⟨_, hat, by rw [rep, h, Option.bind_some, hv.value?_eq hat]⟩

theorem Valid.liveAt_of_rep (hv : t.Valid) (h : t.rep x = some y) :
    ∃ a, t.get? x = some a ∧ t.LiveAt a y := by
  obtain ⟨a, hget, -⟩ := Option.bind_eq_some_iff.mp h
  obtain ⟨z, hat, hz⟩ := hv.liveAt hget
  obtain rfl : y = z := Option.some.inj (h.symm.trans hz)
  exact ⟨a, hget, hat⟩

theorem Valid.rep_eq_none_iff (hv : t.Valid) : t.rep x = none ↔ x ∉ t.names := by
  rw [← Table.get?_eq_none_iff]
  constructor
  · intro h
    cases hget : t.get? x with
    | none => rfl
    | some a =>
        obtain ⟨y, -, hy⟩ := hv.liveAt hget
        simp [h] at hy
  · intro h
    simp [rep, h]

theorem Valid.mem_of_rep (hv : t.Valid) (h : t.rep x = some y) : x ∈ t.names ∧ y ∈ t.names := by
  obtain ⟨a, -, hat⟩ := hv.liveAt_of_rep h
  refine ⟨?_, hat.mem⟩
  by_contra hx
  simp [hv.rep_eq_none_iff.mpr hx] at h

theorem Valid.exists_rep (hv : t.Valid) (h : x ∈ t.names) : ∃ y, t.rep x = some y := by
  cases hrep : t.rep x with
  | none => exact absurd h (hv.rep_eq_none_iff.mp hrep)
  | some y => exact ⟨y, rfl⟩

/-- The name that survives survives as itself. -/
theorem Valid.rep_rep (hv : t.Valid) (h : t.rep x = some y) : t.rep y = some y := by
  obtain ⟨a, -, hat⟩ := hv.liveAt_of_rep h
  exact hv.rep_eq hat

/-- Entries that survive have different names. -/
theorem Valid.liveAt_inj (hv : t.Valid) (ha : t.LiveAt a x) (hb : t.LiveAt b x) : a = b :=
  Option.some.inj ((hv.get?_eq ha).symm.trans (hv.get?_eq hb))

/-- A name reaches an entry if and only if the name of the entry survives for it. -/
theorem Valid.get?_eq_iff (hv : t.Valid) (h : t.LiveAt a x) : t.get? y = some a ↔ t.rep y = some x := by
  constructor
  · intro hget
    obtain ⟨z, hz, hrep⟩ := hv.liveAt hget
    exact h.name_inj hz ▸ hrep
  · intro hrep
    obtain ⟨b, hget, hb⟩ := hv.liveAt_of_rep hrep
    rw [hget, hv.liveAt_inj hb h]

theorem rep_of_sameEntries (h : t.SameEntries t') : t'.rep = t.rep := by
  funext x
  rw [rep, rep, h.get?_eq]
  cases t.get? x with
  | none => rfl
  | some a => exact h.value?_eq a

/-! ### Interning -/

/-- What interning a name does: the name is there afterwards, and what survives for the
others is as it was. -/
structure Interned (t : UniqueTable κ) (x : κ) (t' : UniqueTable κ) : Prop where
  valid : t'.Valid
  label : t'.label = t.label
  order : t'.order = t.order
  names : t'.names = if x ∈ t.names then t.names else t.names ++ [x]
  rep_of_mem : ∀ y ∈ t.names, t'.rep y = t.rep y
  rep_new : x ∉ t.names → t'.rep x = some x

theorem Valid.interned [EntryName κ] (hv : t.Valid) (h : t.intern x = .ok (a, t')) :
    t.order = none ∧ t.Interned x t' := by
  obtain ⟨horder, ⟨hget, rfl⟩ | ⟨hget, rfl, rfl⟩⟩ := Table.add_eq_ok h
  · have hmem := Table.mem_names_of_get? hget
    have hsame := Table.sameEntries_addHits t a 1
    refine ⟨horder, valid_of_sameEntries hsame hv, rfl, rfl, ?_, ?_, fun hx => absurd hmem hx⟩
    · rw [if_pos hmem, hsame.names]
    · intro y _
      rw [rep_of_sameEntries hsame]
  · have hmem : x ∉ t.names := Table.get?_eq_none_iff.mp hget
    have hnames : (t.append { name := x, value := x }).names = t.names ++ [x] := by
      simp [Table.names, Table.append]
    have hvalid : Valid (t.append { name := x, value := x }) := by
      refine ⟨hv.wellFormed.append rfl hmem, ?_⟩
      rw [hnames, ← hv.values]
      simp [Table.append]
    refine ⟨horder, hvalid, rfl, rfl, by rw [if_neg hmem]; exact hnames, ?_, fun _ => ?_⟩
    -- An entry at the end moves none of the others, so their redirects lead where they led.
    · intro y hy
      obtain ⟨z, hz⟩ := hv.exists_rep hy
      obtain ⟨c, hc, hat⟩ := hv.liveAt_of_rep hz
      obtain ⟨d, entry, hentry, hname, hresolve⟩ := hv.wellFormed.get?_eq_some_iff.mp hc
      have hlt := (List.getElem?_eq_some_iff.mp hentry).1
      have hentry' : (t.append { name := x, value := x }).entries[d.slot]? = some entry := by
        rw [Table.append, List.getElem?_append_left hlt, hentry]
      have hget' : (t.append { name := x, value := x }).get? y = some c :=
        hvalid.wellFormed.get?_eq_some_iff.mpr ⟨d, entry, hentry', hname,
          (hv.wellFormed.resolve_append rfl hlt).trans hresolve⟩
      have hat' : LiveAt (t.append { name := x, value := x }) c z := by
        refine ⟨Table.isLive_append_of hat.live, ?_⟩
        rw [hnames, List.getElem?_append_left (List.getElem?_eq_some_iff.mp hat.name).1, hat.name]
      change rep (t.append { name := x, value := x }) y = t.rep y
      rw [hz, rep, hget', Option.bind_some, hvalid.value?_eq hat']
    · have hlast : (t.append { name := x, value := x }).entries[t.entries.length]? =
          some { name := x, value := x } := by
        simp [Table.append]
      have hat : LiveAt (t.append { name := x, value := x }) ⟨t.entries.length⟩ x :=
        ⟨⟨_, hlast, rfl⟩, by rw [hnames]; simp [Table.names]⟩
      exact hvalid.rep_eq hat

theorem Interned.mem_names (h : t.Interned x t') : y ∈ t'.names ↔ y ∈ t.names ∨ y = x := by
  rw [h.names]
  split
  · rename_i hx
    exact ⟨Or.inl, fun hy => hy.elim id fun heq => heq ▸ hx⟩
  · simp

/-- Interning keeps a table plain. -/
theorem Interned.plain (h : t.Interned x t') (hp : t.Plain) : t'.Plain := by
  intro y hy
  by_cases hmem : y ∈ t.names
  · rw [h.rep_of_mem y hmem, hp y hmem]
  · obtain rfl := (h.mem_names.mp hy).resolve_left hmem
    exact h.rep_new hmem

/-! ### Merging -/

/-- What merging one name into another does: names that survived as what survives for the
one survive as what survives for the other. -/
structure Merged (t : UniqueTable κ) (x y : κ) (t' : UniqueTable κ) : Prop where
  valid : t'.Valid
  label : t'.label = t.label
  order : t'.order = t.order
  names : t'.names = t.names
  rep : ∃ a b, t.rep x = some a ∧ t.rep y = some b ∧ a ≠ b ∧
    ∀ z, t'.rep z = if t.rep z = some a then some b else t.rep z

theorem Valid.merged [EntryName κ] (hv : t.Valid) (h : t.dedupe x y = .ok t') :
    t.order = none ∧ t.Merged x y t' := by
  obtain ⟨source, target, hsource, htarget, hrun⟩ := Table.dedupe_eq_ok h
  obtain ⟨horder, hne, rfl⟩ := Table.dedupeHandles_eq_ok hrun
  generalize t.hitCount source = hits
  obtain ⟨p, hp, hrepx⟩ := hv.liveAt hsource
  obtain ⟨q, hq, hrepy⟩ := hv.liveAt htarget
  rw [hp.live.resolve_eq, hq.live.resolve_eq] at hne ⊢
  obtain ⟨hwf, hresolve⟩ := @Table.WellFormed.mergeInto _ _ t source target hits hv.wellFormed
    hp.live hq.live hne
  have hnames : (t.mergeInto source target hits).names = t.names := Table.names_mergeInto
  have hvalid : Valid (t.mergeInto source target hits) :=
    ⟨hwf, by rw [Table.values_mergeInto, hnames, hv.values]⟩
  refine ⟨horder, hvalid, rfl, rfl, hnames, p, q, hrepx, hrepy, ?_, fun z => ?_⟩
  · rintro rfl
    exact hne (hv.liveAt_inj hp hq)
  · by_cases hz : z ∈ t.names
    · obtain ⟨w, hw⟩ := hv.exists_rep hz
      obtain ⟨c, hc, hat⟩ := hv.liveAt_of_rep hw
      obtain ⟨d, entry, hentry, hname, rfl⟩ := hv.wellFormed.get?_eq_some_iff.mp hc
      have hnames' := hnames
      simp only [Table.names] at hnames'
      have hentry' : ((t.mergeInto source target hits).entries[d.slot]?).map (·.name) = some z := by
        rw [← List.getElem?_map, hnames', List.getElem?_map, hentry, Option.map_some, hname]
      obtain ⟨merged, hmerged, hmname⟩ := Option.map_eq_some_iff.mp hentry'
      have hget' : (t.mergeInto source target hits).get? z =
          some (if t.resolve d = source then target else t.resolve d) :=
        hvalid.wellFormed.get?_eq_some_iff.mpr
          ⟨d, merged, hmerged, hmname, hresolve d (List.getElem?_eq_some_iff.mp hentry).1⟩
      -- Only the source stops surviving.
      have hlater : ∀ {e : Handle} {v : κ}, t.LiveAt e v → e ≠ source →
          LiveAt (t.mergeInto source target hits) e v := fun he hne =>
        ⟨Table.isLive_mergeInto he.live hne, hnames.symm ▸ he.name⟩
      rw [hw, rep, hget', Option.bind_some]
      by_cases heq : t.resolve d = source
      · obtain rfl : w = p := (heq ▸ hat).name_inj hp
        rw [if_pos heq, if_pos rfl]
        exact hvalid.value?_eq (hlater hq (Ne.symm hne))
      · have hother : w ≠ p := by
          rintro rfl
          exact heq (hv.liveAt_inj hat hp)
        rw [if_neg heq, if_neg (by simpa using hother)]
        exact hvalid.value?_eq (hlater hat heq)
    · have hnone := hv.rep_eq_none_iff.mpr hz
      rw [hnone, if_neg (by simp)]
      exact hvalid.rep_eq_none_iff.mpr (by rwa [hnames])

end Names

end UniqueTable

end SyntaxPack
