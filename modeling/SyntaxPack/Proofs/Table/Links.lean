import Mathlib.Data.List.Nodup
import SyntaxPack.Table.Basic
import SyntaxPack.Proofs.Monad
/-!
# SyntaxPack.Proofs.Table.Links

Merged entries and the surviving ones they lead to.

A `Chain` is the path of links from a handle to an entry that was not merged away.
In a well-formed table every handle has one, and it is no longer than there are
merged entries, so `resolve` walks it to its end. Adding an entry leaves all chains
as they are; merging one live entry into another makes the chains that ended at the
first one longer by one link.
-/

namespace SyntaxPack

namespace Table

variable {κ ν : Type} {entries entries' : List (Entry κ ν)} {a b : Handle} {k : Nat}

/-- Where a merged entry leads to. -/
def link? (entries : List (Entry κ ν)) (handle : Handle) : Option Handle :=
  entries[handle.slot]?.bind (·.redirect)

/-- A path of `k` links from a handle to one that leads no further. -/
inductive Chain (entries : List (Entry κ ν)) : Handle → Nat → Handle → Prop
  | here {a : Handle} (h : link? entries a = none) : Chain entries a 0 a
  | link {a next b : Handle} {k : Nat} (h : link? entries a = some next)
      (rest : Chain entries next k b) : Chain entries a (k + 1) b

theorem follow_of_chain {steps : Nat} (h : Chain entries a k b) (hk : k ≤ steps) :
    follow entries steps a = b := by
  induction h generalizing steps with
  | here hend =>
      cases steps with
      | zero => rfl
      | succ steps =>
          rw [link?] at hend
          rw [follow, hend]
  | link hlink _ ih =>
      cases steps with
      | zero => omega
      | succ steps =>
          rw [link?] at hlink
          rw [follow, hlink]
          exact ih (by omega)

/-- Chains depend on nothing but the links. -/
theorem Chain.congr (h : Chain entries a k b) (hlinks : ∀ c, link? entries' c = link? entries c) :
    Chain entries' a k b := by
  induction h with
  | here hend => exact .here ((hlinks _).trans hend)
  | link hlink _ ih => exact .link ((hlinks _).trans hlink) ih

theorem follow_congr (hlinks : ∀ c, link? entries' c = link? entries c) (steps : Nat)
    (a : Handle) : follow entries' steps a = follow entries steps a := by
  induction steps generalizing a with
  | zero => rfl
  | succ steps ih =>
      have hlink := hlinks a
      simp only [link?] at hlink
      simp only [follow, hlink]
      split
      · exact ih _
      · rfl

/-- A new link makes the chains that ended where it starts longer by one. -/
theorem Chain.merge {source target : Handle} (h : Chain entries a k b)
    (hsource : link? entries source = none) (htarget : link? entries target = none)
    (hne : source ≠ target)
    (hlinks : ∀ c, link? entries' c = if c = source then some target else link? entries c) :
    if b = source then Chain entries' a (k + 1) target else Chain entries' a k b := by
  have hend : Chain entries' target 0 target :=
    .here (by rw [hlinks, if_neg (Ne.symm hne), htarget])
  induction h with
  | @here c hc =>
      split
      · rename_i heq
        subst heq
        exact .link (by rw [hlinks, if_pos rfl]) hend
      · rename_i hother
        exact .here (by rw [hlinks, if_neg hother, hc])
  | @link c next e k hlink _ ih =>
      have hother : c ≠ source := by
        rintro rfl
        simp [hsource] at hlink
      have hlink' : link? entries' c = some next := by rw [hlinks, if_neg hother, hlink]
      by_cases heq : e = source
      · rw [if_pos heq] at ih ⊢
        exact .link hlink' ih
      · rw [if_neg heq] at ih ⊢
        exact .link hlink' ih

theorem link?_congr (h : entries'.map (·.redirect) = entries.map (·.redirect)) (a : Handle) :
    link? entries' a = link? entries a := by
  have hget : entries'[a.slot]?.map (·.redirect) = entries[a.slot]?.map (·.redirect) := by
    rw [← List.getElem?_map, ← List.getElem?_map, h]
  simp only [link?]
  cases h₁ : entries'[a.slot]? <;> cases h₂ : entries[a.slot]? <;> simp_all

/-! ### Well-formed tables -/

/-- The number of entries that were merged away. -/
def mergedCount (entries : List (Entry κ ν)) : Nat := entries.countP (! ·.isLive)

theorem size_add_mergedCount (t : Table κ ν) : t.size + mergedCount t.entries = t.entries.length := by
  rw [size, mergedCount, List.length_eq_countP_add_countP Entry.isLive]
  congr 2
  funext e
  simp

/-- A handle leads to an entry that was not merged away. -/
def IsLive (t : Table κ ν) (handle : Handle) : Prop :=
  ∃ entry, t.entries[handle.slot]? = some entry ∧ entry.redirect = none

/-- No two entries have one name, and every handle leads to a live entry. -/
structure WellFormed (t : Table κ ν) : Prop where
  names_nodup : (t.entries.map (·.name)).Nodup
  chains : ∀ a : Handle, a.slot < t.entries.length →
    ∃ k b, Chain t.entries a k b ∧ k ≤ mergedCount t.entries ∧ t.IsLive b

variable {t t' : Table κ ν}

theorem IsLive.lt (h : t.IsLive a) : a.slot < t.entries.length := by
  obtain ⟨entry, hentry, -⟩ := h
  exact (List.getElem?_eq_some_iff.mp hentry).1

theorem IsLive.link?_eq (h : t.IsLive a) : link? t.entries a = none := by
  obtain ⟨entry, hentry, hredirect⟩ := h
  simp [link?, hentry, hredirect]

theorem resolve_of_chain (h : Chain t.entries a k b) (hk : k ≤ mergedCount t.entries) :
    t.resolve a = b :=
  follow_of_chain h (Nat.le_trans hk List.countP_le_length)

/-- A live entry survives as itself. -/
theorem IsLive.resolve_eq (h : t.IsLive a) : t.resolve a = a :=
  resolve_of_chain (.here h.link?_eq) (Nat.zero_le _)

/-- What a handle reaches is live. -/
theorem WellFormed.resolve_live (h : t.WellFormed) (ha : a.slot < t.entries.length) :
    t.IsLive (t.resolve a) := by
  obtain ⟨k, b, hchain, hk, hlive⟩ := h.chains a ha
  rwa [resolve_of_chain hchain hk]

/-- Merged entries are those with a redirect. -/
theorem mergedCount_eq_countP (entries : List (Entry κ ν)) :
    mergedCount entries = (entries.map (·.redirect)).countP (·.isSome) := by
  rw [mergedCount, List.countP_map]
  congr 1
  funext e
  simp [Entry.isLive]

theorem size_congr (h : t'.entries.map (·.redirect) = t.entries.map (·.redirect)) :
    t'.size = t.size := by
  have hsize : ∀ t : Table κ ν, t.size = (t.entries.map (·.redirect)).countP (·.isNone) := by
    intro t
    rw [size, List.countP_map]
    rfl
  rw [hsize, hsize, h]

/-- A table with the same names and links. -/
theorem WellFormed.congr (h : t.WellFormed)
    (hnames : t'.entries.map (·.name) = t.entries.map (·.name))
    (hredirects : t'.entries.map (·.redirect) = t.entries.map (·.redirect)) : t'.WellFormed := by
  have hlength : t'.entries.length = t.entries.length := by simpa using congrArg List.length hnames
  have hmerged : mergedCount t'.entries = mergedCount t.entries := by
    rw [mergedCount_eq_countP, mergedCount_eq_countP, hredirects]
  refine ⟨hnames ▸ h.names_nodup, fun a ha => ?_⟩
  obtain ⟨k, b, hchain, hk, entry, hentry, hlive⟩ := h.chains a (hlength ▸ ha)
  refine ⟨k, b, hchain.congr (link?_congr hredirects), hmerged ▸ hk, ?_⟩
  have hget : t'.entries[b.slot]?.map (·.redirect) = t.entries[b.slot]?.map (·.redirect) := by
    rw [← List.getElem?_map, ← List.getElem?_map, hredirects]
  rw [hentry] at hget
  obtain ⟨entry', hentry', hredirect⟩ := Option.map_eq_some_iff.mp hget
  exact ⟨entry', hentry', hredirect.trans hlive⟩

theorem resolve_congr (hredirects : t'.entries.map (·.redirect) = t.entries.map (·.redirect))
    (a : Handle) : t'.resolve a = t.resolve a := by
  have hlength : t'.entries.length = t.entries.length := by
    simpa using congrArg List.length hredirects
  rw [resolve, resolve, hlength]
  exact follow_congr (link?_congr hredirects) _ a

end Table

end SyntaxPack
