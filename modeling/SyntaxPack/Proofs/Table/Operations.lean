import SyntaxPack.Proofs.Table.Links
/-!
# SyntaxPack.Proofs.Table.Operations

What adding to a table and merging in it do.

Both leave the names of the entries that are there as they are. What they change is
which entry survives for a name: in a unique table, where values are their own
names, that is the function `UniqueTable.rep`. A new name survives as itself, and a
merge sends every name that survived as the one to the other.

For each operation there are three kinds of lemmas:

* what it does if it succeeds, in terms of `modify`, `append` and `mergeInto` (`add_eq_ok`,
  `dedupeHandles_eq_ok`, `dedupe_eq_ok`), so that no later proof opens the operation;
* with which errors it fails (`add_eq_error`, `WellFormed.dedupeHandles_eq_error`,
  `require_eq_error`);
* what these changes do to names, links and what is reached by them.

Well-formed tables stay well-formed. For merging that rests on chains: the chain of a handle that
reached the source gets one link longer, and there is one merged entry more to pay for it.
-/

namespace SyntaxPack

namespace Table

variable {κ ν : Type} {t t' : Table κ ν} {a : Handle}

/-- The names of the entries, in the order of their insertion. -/
def names (t : Table κ ν) : List κ := t.entries.map (·.name)

/-- The names of the entries, the values and the links are as they were. Hits, indices and the order
of a finalized table may have changed. -/
structure SameEntries (t t' : Table κ ν) : Prop where
  label : t'.label = t.label
  names : t'.names = t.names
  values : t'.entries.map (·.value) = t.entries.map (·.value)
  redirects : t'.entries.map (·.redirect) = t.entries.map (·.redirect)

theorem SameEntries.wellFormed (h : SameEntries t t') (hw : t.WellFormed) : t'.WellFormed :=
  hw.congr h.names h.redirects

theorem SameEntries.value?_eq (h : SameEntries t t') (a : Handle) : t'.value? a = t.value? a := by
  simp only [value?, entry?, resolve_congr h.redirects]
  rw [← List.getElem?_map, ← List.getElem?_map, h.values]

/-- Changing an entry changes the one at its slot. -/
theorem getElem?_modify (t : Table κ ν) (a : Handle) (f : Entry κ ν → Entry κ ν) (i : Nat) :
    (t.modify a f).entries[i]? =
      if a.slot = i then t.entries[i]?.map f else t.entries[i]? := by
  simp only [modify, List.getElem?_modify]
  cases t.entries[i]? with
  | none => simp
  | some e => split <;> simp [*]

/-- Changing an entry in a way that some part of it does not show. -/
theorem map_modify {α : Type} (t : Table κ ν) (a : Handle) {f : Entry κ ν → Entry κ ν}
    (g : Entry κ ν → α) (hg : ∀ e, g (f e) = g e) :
    (t.modify a f).entries.map g = t.entries.map g := by
  refine List.ext_getElem? fun i => ?_
  rw [List.getElem?_map, List.getElem?_map, getElem?_modify]
  split
  · cases t.entries[i]? with
    | none => rfl
    | some e => simp [hg]
  · rfl

/-- More hits change neither names nor values nor links. -/
theorem sameEntries_addHits (t : Table κ ν) (a : Handle) (hits : Nat) :
    SameEntries t (t.modify a fun e => { e with hitCount := e.hitCount + hits }) := by
  refine ⟨rfl, map_modify t a _ ?_, map_modify t a _ ?_, map_modify t a _ ?_⟩
  all_goals exact fun _ => rfl

section Names

variable [DecidableEq κ]

/-- A name is found at the only entry that has it. -/
theorem WellFormed.slotOf?_eq_some_iff (hw : t.WellFormed) {name : κ} :
    t.slotOf? name = some a ↔ ∃ entry, t.entries[a.slot]? = some entry ∧ entry.name = name := by
  simp only [slotOf?, Option.map_eq_some_iff, List.findIdx?_eq_some_iff_getElem, decide_eq_true_eq]
  constructor
  · rintro ⟨i, ⟨hi, hname, -⟩, rfl⟩
    exact ⟨_, List.getElem?_eq_getElem hi, hname⟩
  · rintro ⟨entry, hentry, hname⟩
    obtain ⟨hi, rfl⟩ := List.getElem?_eq_some_iff.mp hentry
    refine ⟨a.slot, ⟨hi, hname, fun j hj hother => ?_⟩, rfl⟩
    have hnames := hw.names_nodup
    rw [List.nodup_iff_injective_getElem] at hnames
    have := @hnames ⟨j, by simp; omega⟩ ⟨a.slot, by simpa using hi⟩
      (by simpa using hother.trans hname.symm)
    simp only [Fin.mk.injEq] at this
    omega

theorem slotOf?_eq_none_iff {name : κ} : t.slotOf? name = none ↔ name ∉ t.names := by
  simp [slotOf?, names, List.findIdx?_eq_none_iff]

theorem get?_eq_none_iff {name : κ} : t.get? name = none ↔ name ∉ t.names := by
  rw [get?, Option.map_eq_none_iff, slotOf?_eq_none_iff]

theorem mem_names_of_get? {name : κ} (h : t.get? name = some a) : name ∈ t.names := by
  by_contra hnew
  rw [get?_eq_none_iff.mpr hnew] at h
  cases h

theorem WellFormed.get?_eq_some_iff (hw : t.WellFormed) {name : κ} :
    t.get? name = some a ↔
      ∃ b entry, t.entries[b.slot]? = some entry ∧ entry.name = name ∧ t.resolve b = a := by
  simp only [get?, Option.map_eq_some_iff]
  constructor
  · rintro ⟨b, hb, rfl⟩
    obtain ⟨entry, hentry, hname⟩ := hw.slotOf?_eq_some_iff.mp hb
    exact ⟨b, entry, hentry, hname, rfl⟩
  · rintro ⟨b, entry, hentry, hname, rfl⟩
    exact ⟨b, hw.slotOf?_eq_some_iff.mpr ⟨entry, hentry, hname⟩, rfl⟩

theorem WellFormed.get?_live (hw : t.WellFormed) {name : κ} (h : t.get? name = some a) :
    t.IsLive a := by
  obtain ⟨b, entry, hentry, -, rfl⟩ := hw.get?_eq_some_iff.mp h
  exact hw.resolve_live (List.getElem?_eq_some_iff.mp hentry).1

/-- Where a name is found depends on the names alone. -/
theorem slotOf?_congr (h : t'.names = t.names) (name : κ) : t'.slotOf? name = t.slotOf? name := by
  have hfind : ∀ t : Table κ ν,
      t.slotOf? name = (t.names.findIdx? (· = name)).map Handle.mk := by
    intro t
    rw [slotOf?, names, List.findIdx?_map]
    rfl
  rw [hfind, hfind, h]

theorem SameEntries.get?_eq (h : SameEntries t t') (name : κ) : t'.get? name = t.get? name := by
  rw [get?, get?, slotOf?_congr h.names]
  exact Option.map_congr fun a _ => resolve_congr h.redirects a

end Names

/-! ### Adding

A name that is in the table counts a hit of the entry that it reaches; a new one gets an entry. -/

theorem ensureBuilding_eq_ok {u : Unit} : t.ensureBuilding = .ok u ↔ t.order = none := by
  rcases t with ⟨label, check, entries, _ | order⟩
  · simp [ensureBuilding, isFinalized]
  · simp [ensureBuilding, isFinalized]

/-- Adding counts a hit, or appends an entry of its own. -/
theorem add_eq_ok [DecidableEq κ] [DecidableEq ν] [EntryName κ] {name : κ} {value : ν}
    (h : t.add name value = .ok (a, t')) : t.order = none ∧
      ((t.get? name = some a ∧ t' = t.modify a fun e => { e with hitCount := e.hitCount + 1 }) ∨
        (t.get? name = none ∧ a = ⟨t.entries.length⟩ ∧
          t' = { t with entries := t.entries ++ [{ name := name, value := value }] })) := by
  obtain ⟨u, hbuilding, h₁⟩ := bind_eq_ok.mp h
  refine ⟨ensureBuilding_eq_ok.mp hbuilding, ?_⟩
  split at h₁
  · rename_i found hget
    split at h₁
    · simp at h₁
    · simp only [Except.ok.injEq, Prod.mk.injEq] at h₁
      obtain ⟨rfl, rfl⟩ := h₁
      exact Or.inl ⟨hget, rfl⟩
  · rename_i hget
    simp only [Except.ok.injEq, Prod.mk.injEq] at h₁
    obtain ⟨rfl, rfl⟩ := h₁
    exact Or.inr ⟨hget, rfl, rfl⟩

theorem ensureBuilding_of_finalized (h : t.order ≠ none) :
    t.ensureBuilding = .error (.finalized t.label) := by
  have hfinal : t.isFinalized = true := Option.isSome_iff_ne_none.mpr h
  rw [ensureBuilding, if_pos hfinal]

section Adding

variable [DecidableEq κ] [DecidableEq ν] [EntryName κ] {name : κ} {value held : ν}

theorem add_of_finalized (h : t.order ≠ none) :
    t.add name value = .error (.finalized t.label) := by
  rw [add, ensureBuilding_of_finalized h, error_bind]

/-- Adding a name that is in the table compares the value with the one that the name reaches, if
values are compared at all. After a merge that is the value of the entry that survived. -/
theorem add_again (hbuilding : t.order = none) (hget : t.get? name = some a)
    (hvalue : t.value? a = some held) :
    t.add name value =
      if t.checkDivergence = true ∧ held ≠ value then
        .error (.divergent t.label (EntryName.shown name))
      else .ok (a, t.modify a fun e => { e with hitCount := e.hitCount + 1 }) := by
  rw [add, (ensureBuilding_eq_ok (u := ())).mpr hbuilding, ok_bind, hget]
  simp only [hvalue, Option.any_some, Bool.and_eq_true, decide_eq_true_eq]

/-- Adding fails once the table is finalized, and where values diverge. -/
theorem add_eq_error {e : TableError} (h : t.add name value = .error e) :
    e = .finalized t.label ∨ e = .divergent t.label (EntryName.shown name) := by
  by_cases hbuilding : t.order = none
  · rw [add, (ensureBuilding_eq_ok (u := ())).mpr hbuilding, ok_bind] at h
    split at h
    · split at h
      · exact .inr (Except.error.inj h).symm
      · cases h
    · cases h
  · rw [add_of_finalized hbuilding] at h
    exact .inl (Except.error.inj h).symm

end Adding

/-- The table with one more entry, which was not merged. -/
def append (t : Table κ ν) (entry : Entry κ ν) : Table κ ν :=
  { t with entries := t.entries ++ [entry] }

theorem add_new [DecidableEq κ] [DecidableEq ν] [EntryName κ] {name : κ} {value : ν}
    (hbuilding : t.order = none) (hget : t.get? name = none) : t.add name value =
      .ok (⟨t.entries.length⟩, t.append { name := name, value := value }) := by
  rw [add, (ensureBuilding_eq_ok (u := ())).mpr hbuilding, ok_bind, hget]
  rfl

section Append

variable {entry : Entry κ ν}

theorem link?_append (hlive : entry.redirect = none) (a : Handle) :
    link? (t.append entry).entries a = link? t.entries a := by
  simp only [link?, append, List.getElem?_append]
  split
  · rfl
  · rename_i hge
    rw [List.getElem?_eq_none (Nat.le_of_not_lt hge)]
    cases hfound : [entry][a.slot - t.entries.length]? with
    | none => rfl
    | some e =>
        obtain rfl : e = entry := by simpa using List.mem_of_getElem? hfound
        exact hlive

theorem isLive_append_of (h : t.IsLive a) : (t.append entry).IsLive a := by
  obtain ⟨e, he, hredirect⟩ := h
  refine ⟨e, ?_, hredirect⟩
  rw [append, List.getElem?_append_left (List.getElem?_eq_some_iff.mp he).1, he]

theorem mergedCount_append (hlive : entry.redirect = none) :
    mergedCount (t.append entry).entries = mergedCount t.entries := by
  simp [mergedCount, append, List.countP_append, Entry.isLive, hlive]

/-- A new name keeps a table well-formed. -/
theorem WellFormed.append (hw : t.WellFormed) (hlive : entry.redirect = none)
    (hname : entry.name ∉ t.names) : (t.append entry).WellFormed := by
  refine ⟨?_, fun a ha => ?_⟩
  · simp only [Table.append, List.map_append, List.map_cons, List.map_nil]
    exact List.nodup_append.mpr ⟨hw.names_nodup, List.nodup_singleton _, fun x hx y hy => by
      obtain rfl := List.mem_singleton.mp hy
      exact fun heq => hname (heq ▸ hx)⟩
  · rw [mergedCount_append hlive]
    -- Old handles have the chains they had; the new entry is live itself.
    rcases Nat.lt_or_ge a.slot t.entries.length with hlt | hge
    · obtain ⟨k, b, hchain, hk, hblive⟩ := hw.chains a hlt
      exact ⟨k, b, hchain.congr (link?_append hlive), hk, isLive_append_of hblive⟩
    · have hlast : (t.append entry).entries[a.slot]? = some entry := by
        have hslot : a.slot = t.entries.length := by
          simp only [Table.append, List.length_append, List.length_singleton] at ha
          omega
        simp [Table.append, hslot]
      have halive : (t.append entry).IsLive a := ⟨entry, hlast, hlive⟩
      exact ⟨0, a, .here halive.link?_eq, Nat.zero_le _, halive⟩

/-- A new entry changes nothing for the handles that were there. -/
theorem WellFormed.resolve_append (hw : t.WellFormed) (hlive : entry.redirect = none)
    (ha : a.slot < t.entries.length) : (t.append entry).resolve a = t.resolve a := by
  obtain ⟨k, b, hchain, hk, -⟩ := hw.chains a ha
  rw [resolve_of_chain hchain hk]
  exact resolve_of_chain (hchain.congr (link?_append hlive)) (by rwa [mergedCount_append hlive])

end Append

/-! ### Merging

The change that a merge makes, apart from the checks: one link and a number of hits. -/

/-- The table with one live entry merged into another, whose hits it adds to. -/
def mergeInto (t : Table κ ν) (source target : Handle) (hits : Nat) : Table κ ν :=
  (t.modify source fun e => { e with redirect := some target }).modify target
    fun e => { e with hitCount := e.hitCount + hits }

section Merge

variable {source target : Handle} {hits : Nat}

theorem redirects_mergeInto : (t.mergeInto source target hits).entries.map (·.redirect) =
    (t.modify source fun e => { e with redirect := some target }).entries.map (·.redirect) :=
  map_modify _ _ _ fun _ => rfl

theorem link?_mergeInto (hsource : source.slot < t.entries.length) (a : Handle) :
    link? (t.mergeInto source target hits).entries a =
      if a = source then some target else link? t.entries a := by
  rw [link?_congr redirects_mergeInto, link?, getElem?_modify]
  by_cases heq : a = source
  · subst heq
    rw [if_pos rfl, if_pos rfl, List.getElem?_eq_getElem hsource]
    rfl
  · have hne : source.slot ≠ a.slot := by
      cases source
      cases a
      simpa [eq_comm] using heq
    rw [if_neg heq, if_neg hne]
    rfl

theorem names_mergeInto : (t.mergeInto source target hits).names = t.names := by
  refine (map_modify _ _ _ ?_).trans (map_modify _ _ _ ?_)
  · exact fun _ => rfl
  · exact fun _ => rfl

theorem length_mergeInto : (t.mergeInto source target hits).entries.length = t.entries.length := by
  simpa [names] using congrArg List.length (@names_mergeInto _ _ t source target hits)

theorem values_mergeInto :
    (t.mergeInto source target hits).entries.map (·.value) = t.entries.map (·.value) := by
  refine (map_modify _ _ _ ?_).trans (map_modify _ _ _ ?_)
  · exact fun _ => rfl
  · exact fun _ => rfl

theorem mergedCount_mergeInto (hsource : t.IsLive source) :
    mergedCount (t.mergeInto source target hits).entries = mergedCount t.entries + 1 := by
  have hlt := hsource.lt
  obtain ⟨entry, hentry, hlive⟩ := hsource
  obtain rfl : t.entries[source.slot] = entry := (List.getElem?_eq_some_iff.mp hentry).2
  rw [mergedCount_eq_countP, redirects_mergeInto, ← mergedCount_eq_countP]
  simp only [mergedCount, modify]
  -- The entries before and behind the source count as before, the source is merged now.
  rw [List.modify_eq_take_cons_drop hlt]
  conv => rhs; rw [← List.take_append_drop source.slot t.entries, List.drop_eq_getElem_cons hlt]
  simp only [List.countP_append, List.countP_cons, Entry.isLive, hlive]
  simp
  omega

theorem isLive_mergeInto (h : t.IsLive a) (hne : a ≠ source) :
    (t.mergeInto source target hits).IsLive a := by
  obtain ⟨entry, hentry, hlive⟩ := h
  have hslot : source.slot ≠ a.slot := by
    cases source
    cases a
    simpa [eq_comm] using hne
  have hsource : (t.modify source fun e => { e with redirect := some target }).entries[a.slot]? =
      some entry := by
    rw [getElem?_modify, if_neg hslot, hentry]
  simp only [IsLive, mergeInto, getElem?_modify (t.modify source _), hsource]
  split
  · exact ⟨_, rfl, hlive⟩
  · exact ⟨entry, rfl, hlive⟩

/-- A merge takes one entry away. -/
theorem size_mergeInto (hsource : t.IsLive source) :
    (t.mergeInto source target hits).size + 1 = t.size := by
  have hsize := t.size_add_mergedCount
  have hsize' := size_add_mergedCount (t.mergeInto source target hits)
  rw [mergedCount_mergeInto hsource, length_mergeInto] at hsize'
  omega

/-- A merge keeps a table well-formed, and sends everything that reached the source to the target.
What reached anything else reaches it still. -/
theorem WellFormed.mergeInto (hw : t.WellFormed) (hsource : t.IsLive source)
    (htarget : t.IsLive target) (hne : source ≠ target) :
    (t.mergeInto source target hits).WellFormed ∧
      ∀ a : Handle, a.slot < t.entries.length → (t.mergeInto source target hits).resolve a =
        if t.resolve a = source then target else t.resolve a := by
  -- Both parts are read off the chains after the merge.
  have hchain : ∀ a : Handle, a.slot < t.entries.length → ∃ k,
      Chain (t.mergeInto source target hits).entries a k
        (if t.resolve a = source then target else t.resolve a) ∧
      k ≤ mergedCount (t.mergeInto source target hits).entries ∧
      (t.mergeInto source target hits).IsLive
        (if t.resolve a = source then target else t.resolve a) := by
    intro a ha
    obtain ⟨k, b, hchain, hk, hlive⟩ := hw.chains a ha
    have hmerge := hchain.merge hsource.link?_eq htarget.link?_eq hne
      (@link?_mergeInto _ _ t source target hits hsource.lt)
    rw [resolve_of_chain hchain hk, mergedCount_mergeInto hsource]
    by_cases heq : b = source
    · rw [if_pos heq] at hmerge ⊢
      exact ⟨k + 1, hmerge, by omega, isLive_mergeInto htarget (Ne.symm hne)⟩
    · rw [if_neg heq] at hmerge ⊢
      exact ⟨k, hmerge, by omega, isLive_mergeInto hlive heq⟩
  refine ⟨⟨?_, fun a ha => ?_⟩, fun a ha => ?_⟩
  · have hnames := @names_mergeInto _ _ t source target hits
    rw [names] at hnames
    rw [hnames]
    exact hw.names_nodup
  · obtain ⟨k, hk, hle, hlive⟩ := hchain a (length_mergeInto ▸ ha)
    exact ⟨k, _, hk, hle, hlive⟩
  · obtain ⟨k, hk, hle, -⟩ := hchain a ha
    exact resolve_of_chain hk hle

end Merge

/-- Merging handles merges what they reach, with all the hits it has, and only if that is two
different entries of a table that is not finalized. -/
theorem dedupeHandles_eq_ok [EntryName κ] {source target : Handle}
    (h : t.dedupeHandles source target = .ok t') : t.order = none ∧
      t.resolve source ≠ t.resolve target ∧
        t' = t.mergeInto (t.resolve source) (t.resolve target) (t.hitCount source) := by
  obtain ⟨u, hbuilding, h₁⟩ := bind_eq_ok.mp h
  dsimp only at h₁
  split at h₁
  · rename_i merged hmerged
    have hhits : t.hitCount source = merged.hitCount := by
      rw [hitCount, entry?, hmerged, Option.elim_some]
    split at h₁
    · simp at h₁
    · rename_i hne
      simp only [Except.ok.injEq] at h₁
      exact ⟨ensureBuilding_eq_ok.mp hbuilding, hne, hhits ▸ h₁.symm⟩
  · simp at h₁

theorem dedupeHandles_of_finalized [EntryName κ] {source target : Handle} (h : t.order ≠ none) :
    t.dedupeHandles source target = .error (.finalized t.label) := by
  rw [dedupeHandles, ensureBuilding_of_finalized h, error_bind]

/-- While a table is built, merging handles fails only if they reach one entry. -/
theorem dedupeHandles_of_building [EntryName κ] {source target : Handle} {merged : Entry κ ν}
    (hbuilding : t.order = none) (hmerged : t.entries[(t.resolve source).slot]? = some merged) :
    t.dedupeHandles source target =
      if t.resolve source = t.resolve target then
        .error (.selfDedupe t.label (EntryName.shown merged.name))
      else .ok (t.mergeInto (t.resolve source) (t.resolve target) merged.hitCount) := by
  rw [dedupeHandles, (ensureBuilding_eq_ok (u := ())).mpr hbuilding, ok_bind]
  simp only [hmerged]
  rfl

/-- Merging fails once the table is finalized, and where both handles reach one entry. -/
theorem WellFormed.dedupeHandles_eq_error [EntryName κ] {source target : Handle} {e : TableError}
    (hw : t.WellFormed) (hsource : source.slot < t.entries.length)
    (h : t.dedupeHandles source target = .error e) :
    e = .finalized t.label ∨ ∃ name, e = .selfDedupe t.label name := by
  by_cases hbuilding : t.order = none
  · obtain ⟨merged, hmerged, -⟩ := hw.resolve_live hsource
    rw [dedupeHandles_of_building hbuilding hmerged] at h
    split at h
    · exact .inr ⟨_, (Except.error.inj h).symm⟩
    · cases h
  · rw [dedupeHandles_of_finalized hbuilding] at h
    exact .inl (Except.error.inj h).symm

section NamesAfter

variable [DecidableEq κ] {source target : Handle} {hits : Nat}

theorem require_eq_ok [EntryName κ] {name : κ} : t.require name = .ok a ↔ t.get? name = some a := by
  rw [require]
  cases t.get? name with
  | none => simp
  | some b => simp

theorem require_eq_error [EntryName κ] {name : κ} {e : TableError} (h : t.require name = .error e) :
    e = .unknownName t.label (EntryName.shown name) := by
  rw [require] at h
  split at h
  · cases h
  · exact (Except.error.inj h).symm

/-- Merging names merges what they reach. -/
theorem dedupe_eq_ok [EntryName κ] {source target : κ} (h : t.dedupe source target = .ok t') :
    ∃ a b, t.get? source = some a ∧ t.get? target = some b ∧ t.dedupeHandles a b = .ok t' := by
  obtain ⟨a, hsource, h₁⟩ := bind_eq_ok.mp h
  obtain ⟨b, htarget, h₂⟩ := bind_eq_ok.mp h₁
  exact ⟨a, b, require_eq_ok.mp hsource, require_eq_ok.mp htarget, h₂⟩

/-- Merging names takes one entry away. -/
theorem WellFormed.size_dedupe [EntryName κ] {source target : κ} (hw : t.WellFormed)
    (h : t.dedupe source target = .ok t') : t'.size + 1 = t.size := by
  obtain ⟨a, b, ha, -, hrun⟩ := dedupe_eq_ok h
  obtain ⟨-, -, rfl⟩ := dedupeHandles_eq_ok hrun
  have hlive : t.IsLive (t.resolve a) := (hw.get?_live ha).resolve_eq.symm ▸ hw.get?_live ha
  exact size_mergeInto hlive

theorem slotOf?_lt {name : κ} (h : t.slotOf? name = some a) : a.slot < t.entries.length := by
  simp only [slotOf?, Option.map_eq_some_iff, List.findIdx?_eq_some_iff_getElem] at h
  obtain ⟨i, ⟨hi, -⟩, rfl⟩ := h
  exact hi

/-- A new entry is found by its name unless that name was there before. -/
theorem slotOf?_append {entry : Entry κ ν} (name : κ) : (t.append entry).slotOf? name =
    (t.slotOf? name).or (if entry.name = name then some ⟨t.entries.length⟩ else none) := by
  simp only [slotOf?, append, List.findIdx?_append, List.findIdx?_cons, List.findIdx?_nil]
  cases t.entries.findIdx? fun e => decide (e.name = name) with
  | some i => simp
  | none => by_cases h : entry.name = name <;> simp [h]

/-- A new entry leaves the names that were there where they are. -/
theorem WellFormed.get?_append {entry : Entry κ ν} (hw : t.WellFormed)
    (hlive : entry.redirect = none) (hnew : entry.name ∉ t.names) (name : κ) :
    (t.append entry).get? name =
      if entry.name = name then some ⟨t.entries.length⟩ else t.get? name := by
  rw [get?, slotOf?_append, get?]
  by_cases hname : entry.name = name
  · have hlast : (t.append entry).IsLive ⟨t.entries.length⟩ := ⟨entry, by simp [Table.append], hlive⟩
    rw [if_pos hname, slotOf?_eq_none_iff.mpr (hname ▸ hnew), if_pos hname, Option.none_or,
      Option.map_some, hlast.resolve_eq]
  · rw [if_neg hname, if_neg hname, Option.or_none]
    exact Option.map_congr fun a ha => hw.resolve_append hlive (slotOf?_lt ha)

/-- After a merge the names that reached the source reach the target. -/
theorem WellFormed.get?_mergeInto (hw : t.WellFormed) (hsource : t.IsLive source)
    (htarget : t.IsLive target) (hne : source ≠ target) (name : κ) :
    (t.mergeInto source target hits).get? name =
      (t.get? name).map fun a => if a = source then target else a := by
  rw [get?, slotOf?_congr names_mergeInto, get?, Option.map_map]
  exact Option.map_congr fun a ha => (hw.mergeInto hsource htarget hne).2 a (slotOf?_lt ha)

end NamesAfter

end Table

end SyntaxPack
