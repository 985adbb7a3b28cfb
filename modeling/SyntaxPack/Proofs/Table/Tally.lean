import Mathlib.Algebra.BigOperators.Group.List.Basic
import SyntaxPack.Proofs.Table.Finalized
/-!
# SyntaxPack.Proofs.Table.Tally

What the hits of a table count.

However adding and merging follow one another, the hits of a live entry are the added
names that reach it. Adding a name puts one more name where one more hit is, and merging
moves the names that reach an entry together with its hits. Since every added name
reaches one live entry, all hits together are as many as there were names added.
-/

namespace SyntaxPack

theorem Handle.slot_inj {a b : Handle} : a.slot = b.slot ↔ a = b := by
  cases a
  cases b
  simp

/-- Counting, for each of several outcomes that exclude one another, the items that have it. -/
theorem foldr_add_countP {α β : Type} [DecidableEq β] {f : α → Option β} {outcomes : List β}
    {items : List α} (hnodup : outcomes.Nodup)
    (houtcome : ∀ x ∈ items, ∃ b ∈ outcomes, f x = some b) :
    (outcomes.map fun b => items.countP fun x => f x = some b).foldr (· + ·) 0 = items.length := by
  rw [← List.sum_eq_foldr]
  induction items with
  | nil => simp
  | cons x items ih =>
      obtain ⟨b, hb, hx⟩ := houtcome x List.mem_cons_self
      have hcount : ∀ l : List β, (l.map fun c => if f x = some c then 1 else 0).sum = l.count b := by
        intro l
        induction l with
        | nil => rfl
        | cons c l ihl =>
            rw [List.map_cons, List.sum_cons, ihl, List.count_cons, hx]
            by_cases hc : c = b
            · simp [hc, Nat.add_comm]
            · simp [hc, Ne.symm hc]
      have hrest := ih fun y hy => houtcome y (List.mem_cons_of_mem x hy)
      simp only [List.countP_cons, List.sum_map_add, hrest, decide_eq_true_eq, hcount,
        List.count_eq_one_of_mem hnodup hb, List.length_cons]

/-- Counting the items with one of two properties that exclude one another. -/
theorem countP_or_of_disjoint {α : Type} {p q : α → Bool} {items : List α}
    (h : ∀ x ∈ items, p x = true → q x = false) :
    (items.countP fun x => p x || q x) = items.countP p + items.countP q := by
  induction items with
  | nil => rfl
  | cons x items ih =>
      have hrest := ih fun y hy => h y (List.mem_cons_of_mem x hy)
      have hfirst := h x List.mem_cons_self
      simp only [List.countP_cons, hrest]
      cases hp : p x with
      | false => simp; omega
      | true => simp [hfirst hp]; omega

namespace Table

variable {κ ν : Type} {t t' : Table κ ν} {log : List κ} {a b : Handle} {hits : Nat}

theorem isLive_congr (h : t'.entries.map (·.redirect) = t.entries.map (·.redirect)) :
    t'.IsLive a ↔ t.IsLive a := by
  have hlive : ∀ t : Table κ ν,
      t.IsLive a ↔ (t.entries.map (·.redirect))[a.slot]? = some none := by
    intro t
    rw [List.getElem?_map, Option.map_eq_some_iff, IsLive]
  rw [hlive, hlive, h]

theorem IsLive.hitCount_eq (h : t.IsLive a) :
    t.hitCount a = (t.entries[a.slot]?).elim 0 (·.hitCount) := by
  rw [hitCount, entry?, h.resolve_eq]

theorem hitCount_of_mem_live {entry : Entry κ ν} (h : (a, entry) ∈ t.live) :
    t.hitCount a = entry.hitCount := by
  obtain ⟨hentry, hlive⟩ := mem_live.mp h
  have hat : t.IsLive a := ⟨entry, hentry, by simpa [Entry.isLive] using hlive⟩
  rw [hat.hitCount_eq, hentry, Option.elim_some]

theorem exists_mem_live (h : t.IsLive a) : a ∈ t.live.map (·.1) := by
  obtain ⟨entry, hentry, hredirect⟩ := h
  exact List.mem_map.mpr ⟨(a, entry), mem_live.mpr ⟨hentry, by simp [Entry.isLive, hredirect]⟩, rfl⟩

/-- Giving an entry more hits gives them to no other one. -/
theorem hitCount_modify (h : t.IsLive a) (b : Handle) :
    (t.modify b fun e => { e with hitCount := e.hitCount + hits }).hitCount a =
      if b = a then t.hitCount a + hits else t.hitCount a := by
  have hlive : (t.modify b fun e => { e with hitCount := e.hitCount + hits }).IsLive a :=
    (isLive_congr (map_modify t b _ (f := fun e => { e with hitCount := e.hitCount + hits })
      fun _ => rfl)).mpr h
  rw [hlive.hitCount_eq, h.hitCount_eq, getElem?_modify]
  obtain ⟨entry, hentry, -⟩ := h
  by_cases heq : b = a
  · rw [if_pos heq, if_pos (Handle.slot_inj.mpr heq), hentry]
    rfl
  · rw [if_neg heq, if_neg fun hslot => heq (Handle.slot_inj.mp hslot)]

theorem hitCount_finalize (h : t.IsLive a) (ordering : TableOrdering) (keep : Entry κ ν → Bool) :
    (t.finalize ordering keep).hitCount a = t.hitCount a := by
  have hlive := (isLive_congr (t.sameEntries_finalize ordering keep).redirects).mpr h
  rw [hlive.hitCount_eq, h.hitCount_eq]
  simp only [finalize]
  split
  · rfl
  · rw [List.getElem?_mapIdx]
    cases t.entries[a.slot]? with
    | none => rfl
    | some entry => rfl

/-- A merge adds the hits of the source to the target. -/
theorem hitCount_mergeInto {source target : Handle} (h : t.IsLive a)
    (hne : a ≠ source) : (t.mergeInto source target hits).hitCount a =
      if target = a then t.hitCount a + hits else t.hitCount a := by
  have hslot : source.slot ≠ a.slot := fun heq => hne (Handle.slot_inj.mp heq).symm
  obtain ⟨entry, hentry, hredirect⟩ := id h
  have hlinked : (t.modify source fun e => { e with redirect := some target }).entries[a.slot]? =
      some entry := by
    rw [getElem?_modify, if_neg hslot, hentry]
  have hlive : (t.modify source fun e => { e with redirect := some target }).IsLive a :=
    ⟨entry, hlinked, hredirect⟩
  rw [mergeInto, hitCount_modify hlive, hlive.hitCount_eq, h.hitCount_eq, hlinked, hentry]

/-- A merge leaves the live entries but the source. -/
theorem isLive_mergeInto_iff {source target : Handle} (hsource : t.IsLive source) :
    (t.mergeInto source target hits).IsLive a ↔ t.IsLive a ∧ a ≠ source := by
  refine ⟨fun h => ?_, fun h => isLive_mergeInto h.1 h.2⟩
  have hlink := h.link?_eq
  rw [link?_mergeInto hsource.lt] at hlink
  split at hlink
  · simp at hlink
  · rename_i hne
    refine ⟨?_, hne⟩
    have hlt : a.slot < t.entries.length := length_mergeInto ▸ h.lt
    rw [link?, List.getElem?_eq_getElem hlt, Option.bind_some] at hlink
    exact ⟨_, List.getElem?_eq_getElem hlt, hlink⟩

variable [DecidableEq κ]

/-- The hits of every live entry are the names in a list that reach it. -/
structure Tallied (t : Table κ ν) (log : List κ) : Prop where
  wellFormed : t.WellFormed
  mem_names : ∀ name ∈ log, name ∈ t.names
  hits : ∀ a, t.IsLive a → t.hitCount a = log.countP fun name => t.get? name = some a

theorem tallied_empty (label : String) (checkDivergence : Bool) :
    Tallied (.empty label checkDivergence : Table κ ν) [] := by
  refine ⟨⟨by simp [empty], fun a ha => absurd ha (Nat.not_lt_zero _)⟩, by simp, ?_⟩
  rintro a ⟨entry, hentry, -⟩
  simp [empty] at hentry

/-- Every name that was added reaches a live entry. -/
theorem Tallied.exists_live (h : t.Tallied log) {name : κ} (hname : name ∈ log) :
    ∃ a ∈ t.live.map (·.1), t.get? name = some a := by
  cases hget : t.get? name with
  | none => exact absurd (h.mem_names name hname) (get?_eq_none_iff.mp hget)
  | some a => exact ⟨a, exists_mem_live (h.wellFormed.get?_live hget), rfl⟩

/-- All hits together are as many as the names that were added. -/
theorem Tallied.total (h : t.Tallied log) :
    (t.live.map (·.2.hitCount)).foldr (· + ·) 0 = log.length := by
  have hcounts : t.live.map (·.2.hitCount) =
      (t.live.map (·.1)).map fun a => log.countP fun name => t.get? name = some a := by
    rw [List.map_map]
    refine List.map_congr_left fun p hp => ?_
    have hat := (mem_live.mp hp).1
    rw [Function.comp_apply, ← h.hits p.1 ⟨p.2, hat, by
      simpa [Entry.isLive] using (mem_live.mp hp).2⟩, hitCount_of_mem_live hp]
  rw [hcounts]
  exact foldr_add_countP t.nodup_live fun name hname => h.exists_live hname

theorem Tallied.hitCount_le (h : t.Tallied log) (ha : t.IsLive a) :
    t.hitCount a ≤ log.length := by
  rw [h.hits a ha]
  exact List.countP_le_length

theorem Tallied.congr (h : t.Tallied log) (hsame : t.SameEntries t')
    (hhits : ∀ a, t.IsLive a → t'.hitCount a = t.hitCount a) : t'.Tallied log := by
  refine ⟨hsame.wellFormed h.wellFormed, fun name hname => ?_, fun a ha => ?_⟩
  · rw [hsame.names]
    exact h.mem_names name hname
  · have hlive := (isLive_congr hsame.redirects).mp ha
    rw [hhits a hlive, h.hits a hlive]
    simp only [hsame.get?_eq]

theorem Tallied.finalize (h : t.Tallied log) (ordering : TableOrdering)
    (keep : Entry κ ν → Bool) : (t.finalize ordering keep).Tallied log :=
  h.congr (t.sameEntries_finalize ordering keep) fun _ ha => hitCount_finalize ha ordering keep

/-- A name that is added again gives one more hit to the entry it reaches. -/
theorem Tallied.hit {name : κ} (h : t.Tallied log) (hget : t.get? name = some a) :
    (t.modify a fun e => { e with hitCount := e.hitCount + 1 }).Tallied (log ++ [name]) := by
  have hsame := t.sameEntries_addHits a 1
  have hname := mem_names_of_get? hget
  refine ⟨hsame.wellFormed h.wellFormed, fun other hother => ?_, fun b hb => ?_⟩
  · rw [hsame.names]
    rcases List.mem_append.mp hother with hold | hnew
    · exact h.mem_names other hold
    · exact List.mem_singleton.mp hnew ▸ hname
  · have hlive := (isLive_congr hsame.redirects).mp hb
    rw [hitCount_modify hlive, h.hits b hlive]
    simp only [hsame.get?_eq, List.countP_append, List.countP_singleton, hget, Option.some.injEq,
      decide_eq_true_eq]
    split <;> rfl

omit [DecidableEq κ] in
/-- A live entry is the new one or an old one with its old hits. -/
theorem hitCount_append {entry : Entry κ ν} (hb : (t.append entry).IsLive b) :
    (b = ⟨t.entries.length⟩ ∧ (t.append entry).hitCount b = entry.hitCount) ∨
      (t.IsLive b ∧ (t.append entry).hitCount b = t.hitCount b) := by
  rw [hb.hitCount_eq]
  obtain ⟨found, hfound, hredirect⟩ := hb
  rw [hfound, Option.elim_some]
  simp only [append] at hfound
  rcases Nat.lt_trichotomy b.slot t.entries.length with hlt | heq | hgt
  · rw [List.getElem?_append_left hlt] at hfound
    have hlive : t.IsLive b := ⟨found, hfound, hredirect⟩
    exact Or.inr ⟨hlive, by rw [hlive.hitCount_eq, hfound, Option.elim_some]⟩
  · rw [List.getElem?_append_right (Nat.le_of_eq heq.symm), heq, Nat.sub_self] at hfound
    exact Or.inl ⟨Handle.slot_inj.mp heq, congrArg Entry.hitCount (Option.some.inj hfound).symm⟩
  · rw [List.getElem?_eq_none (by simp; omega)] at hfound
    simp at hfound

/-- A new name reaches its own entry, which none of those added before reaches. -/
theorem Tallied.append {entry : Entry κ ν} (h : t.Tallied log) (hlive : entry.redirect = none)
    (hhits : entry.hitCount = 1) (hnew : entry.name ∉ t.names) :
    (t.append entry).Tallied (log ++ [entry.name]) := by
  have hafter := h.wellFormed.get?_append hlive hnew
  refine ⟨h.wellFormed.append hlive hnew, fun other hother => ?_, fun b hb => ?_⟩
  · have hnames : (t.append entry).names = t.names ++ [entry.name] := by simp [names, Table.append]
    rw [hnames]
    rcases List.mem_append.mp hother with hold | hlast
    · exact List.mem_append_left _ (h.mem_names other hold)
    · exact List.mem_append_right _ hlast
  · have hold : log.countP (fun other => (t.append entry).get? other = some b) =
        log.countP fun other => t.get? other = some b := by
      refine List.countP_congr fun other hother => ?_
      have hne : entry.name ≠ other := fun heq => hnew (heq ▸ h.mem_names other hother)
      rw [hafter, if_neg hne]
    rw [List.countP_append, hold, List.countP_singleton, hafter, if_pos rfl]
    rcases hitCount_append hb with ⟨rfl, hcount⟩ | ⟨hlive', hcount⟩
    · have hnone : log.countP (fun other => t.get? other = some ⟨t.entries.length⟩) = 0 := by
        refine List.countP_eq_zero.mpr fun other _ hreach => ?_
        exact Nat.lt_irrefl _ (h.wellFormed.get?_live (of_decide_eq_true hreach)).lt
      rw [hcount, hhits, hnone]
      simp
    · have hother : (⟨t.entries.length⟩ : Handle) ≠ b := by
        rintro rfl
        exact Nat.lt_irrefl _ hlive'.lt
      rw [hcount, h.hits b hlive']
      simp [hother]

/-- Adding a name gives what it reaches one more hit. -/
theorem Tallied.add [DecidableEq ν] [EntryName κ] {name : κ} {value : ν} (h : t.Tallied log)
    (hrun : t.add name value = .ok (a, t')) : t'.Tallied (log ++ [name]) := by
  obtain ⟨-, ⟨hget, rfl⟩ | ⟨hget, rfl, rfl⟩⟩ := add_eq_ok hrun
  · exact h.hit hget
  · exact h.append rfl rfl (get?_eq_none_iff.mp hget)

/-- Merging moves the names that reach the source, and its hits with them. -/
theorem Tallied.dedupeHandles [EntryName κ] {source target : Handle} (h : t.Tallied log)
    (hsource : source.slot < t.entries.length) (htarget : target.slot < t.entries.length)
    (hrun : t.dedupeHandles source target = .ok t') : t'.Tallied log := by
  obtain ⟨-, hne, rfl⟩ := dedupeHandles_eq_ok hrun
  have hlives := h.wellFormed.resolve_live hsource
  have hlivet := h.wellFormed.resolve_live htarget
  have hhits : t.hitCount source = t.hitCount (t.resolve source) := by
    rw [hitCount, hitCount, entry?, entry?, hlives.resolve_eq]
  rw [hhits]
  -- From here on only the surviving entries count, not the handles that lead to them.
  generalize t.resolve source = s at hne hlives ⊢
  generalize t.resolve target = u at hne hlivet ⊢
  have hafter := @WellFormed.get?_mergeInto _ _ t _ s u (t.hitCount s) h.wellFormed hlives hlivet hne
  refine ⟨(h.wellFormed.mergeInto hlives hlivet hne).1, fun name hname => ?_, fun a ha => ?_⟩
  · rw [names_mergeInto]
    exact h.mem_names name hname
  · obtain ⟨hlive, hother⟩ := (isLive_mergeInto_iff hlives).mp ha
    -- A name reaches the target if it did before, or if it reached the source.
    have hreach : ∀ name, (t.mergeInto s u (t.hitCount s)).get? name = some a ↔
        t.get? name = some a ∨ u = a ∧ t.get? name = some s := by
      intro name
      rw [hafter]
      cases t.get? name with
      | none => simp
      | some b =>
          by_cases hb : b = s
          · subst hb
            simp [Ne.symm hother]
          · simp [hb]
    rw [hitCount_mergeInto hlive hother, h.hits a hlive]
    by_cases hu : u = a
    · have hdisjoint : ∀ name ∈ log, decide (t.get? name = some a) = true →
          decide (t.get? name = some s) = false := by
        intro name _ hname
        simp [of_decide_eq_true hname, hother]
      rw [if_pos hu, h.hits s hlives, ← countP_or_of_disjoint hdisjoint, ← h.hits s hlives]
      refine List.countP_congr fun name _ => ?_
      rw [Bool.or_eq_true, decide_eq_true_eq, decide_eq_true_eq, decide_eq_true_eq, hreach]
      simp [hu]
    · rw [if_neg hu]
      refine List.countP_congr fun name _ => ?_
      rw [decide_eq_true_eq, decide_eq_true_eq, hreach]
      simp [hu]

theorem Tallied.dedupe [EntryName κ] {source target : κ} (h : t.Tallied log)
    (hrun : t.dedupe source target = .ok t') : t'.Tallied log := by
  obtain ⟨a, b, ha, hb, hmerge⟩ := dedupe_eq_ok hrun
  exact h.dedupeHandles (h.wellFormed.get?_live ha).lt (h.wellFormed.get?_live hb).lt hmerge

end Table

end SyntaxPack
