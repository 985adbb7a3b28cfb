import Mathlib.Data.List.Perm.Subperm
import Mathlib.Logic.Relation
import SyntaxPack.Proofs.Firsts
import SyntaxPack.Proofs.Lookup
import SyntaxPack.Proofs.Table.Tally
/-!
# SyntaxPack.Proofs.Table.History

A table as a counted union-find.

A `History` is a table together with a record of the calls that led to it: the names that
were added with the handles returned for them, and the merges that were made. The record is
what the table is compared with. It is kept as calls are performed one after another, and a
call that fails leaves both as they are.

The proof goes by one invariant for each part of the record:

* `Linked`: the links alone determine which handles reach one entry, and they do what the
  equivalence closure of the merges says.
* `Tallied`: the hits of live entries add up to the number of additions.
* `Agrees`: both, and the names of the table in the order in which they were first added.

One step keeps each of them (`Agrees.apply`), so every run does (`Agrees.run`), and what a
history shows to its caller follows from the invariants (`countedUnionFind_run`). Tables are
persistent values here; that the in-place version of them leaves a failing call without a
trace is another matter, treated in `SyntaxPack.Proofs.Table.Atomic`.
-/

namespace SyntaxPack

namespace Table

/-- A merge that was made, with the handles it was given and the entry that was left. The last
cannot be had from the handles later on, for other merges may have moved it. -/
structure Merge where
  /-- The handle whose entry was merged away. -/
  source : Handle
  /-- The handle whose entry took over. -/
  target : Handle
  /-- The entry that the target resolved to. -/
  survivor : Handle
  deriving DecidableEq, Repr

variable {κ ν : Type} {t t' : Table κ ν} {merges : List Merge} {a b : Handle}

/-- The equivalence closure of the merges. It does not look at the table, and knows neither the
order of the merges nor their direction. -/
def Connected (merges : List Merge) : Handle → Handle → Prop :=
  Relation.EqvGen fun a b => ∃ m ∈ merges, m.source = a ∧ m.target = b

/-- What all merges agree on, connected handles agree on. This is the one induction on the closure;
every use of it below chooses the function. -/
theorem Connected.eq_of_forall {α : Type} (h : Connected merges a b) (f : Handle → α)
    (hf : ∀ m ∈ merges, f m.source = f m.target) : f a = f b := by
  induction h with
  | rel a b hab =>
      obtain ⟨m, hm, rfl, rfl⟩ := hab
      exact hf m hm
  | refl a => rfl
  | symm a b _ ih => exact ih.symm
  | trans a b c _ _ ihab ihbc => exact ihab.trans ihbc

theorem Connected.mono {merges' : List Merge} (h : Connected merges a b)
    (hsub : merges ⊆ merges') : Connected merges' a b :=
  Relation.EqvGen.mono (fun _ _ ⟨m, hm, hab⟩ => ⟨m, hsub hm, hab⟩) a b h

/-! ### Links and merges

A link that is set joins two classes of handles. What this does to resolving is stated once
(`Joins`), with no mention of links, and the three lemmas that follow it speak of the last merge of
a sequence. -/

/-- Handles lead to one entry if and only if merges connect them, and that entry is the one
that the last of these merges left. -/
structure Linked (t : Table κ ν) (merges : List Merge) : Prop where
  wellFormed : t.WellFormed
  handles : ∀ m ∈ merges, m.source.slot < t.entries.length ∧ m.target.slot < t.entries.length
  mergedCount_eq : mergedCount t.entries = merges.length
  connected : ∀ a b : Handle, a.slot < t.entries.length → b.slot < t.entries.length →
    (t.resolve a = t.resolve b ↔ Connected merges a b)
  alone : ∀ a : Handle, a.slot < t.entries.length →
    (∀ m ∈ merges, t.resolve a ≠ t.resolve m.target) → t.resolve a = a
  survives : ∀ (a : Handle) earlier m later, a.slot < t.entries.length →
    merges = earlier ++ m :: later → t.resolve a = t.resolve m.target →
    (∀ n ∈ later, t.resolve a ≠ t.resolve n.target) → t.resolve a = m.survivor

theorem linked_empty (label : String) (checkDivergence : Bool) :
    Linked (.empty label checkDivergence : Table κ ν) [] := by
  have hnone : ∀ a : Handle, ¬a.slot < (empty label checkDivergence : Table κ ν).entries.length :=
    fun a => Nat.not_lt_zero _
  exact ⟨⟨by simp [empty], fun a ha => absurd ha (hnone a)⟩, by simp, rfl,
    fun a _ ha => absurd ha (hnone a), fun a ha => absurd ha (hnone a),
    fun a _ _ _ ha => absurd ha (hnone a)⟩

/-- The links are all that matters: hits, marks and the order of a finalized table may change. -/
theorem Linked.congr (h : t.Linked merges) (hsame : t.SameEntries t') : t'.Linked merges := by
  have hlength : t'.entries.length = t.entries.length := by
    simpa using congrArg List.length hsame.redirects
  have hresolve : t'.resolve = t.resolve := funext fun a => resolve_congr hsame.redirects a
  refine ⟨hsame.wellFormed h.wellFormed, ?_, ?_, ?_, ?_, ?_⟩
  · rw [hlength]
    exact h.handles
  -- The number of merged entries is read off the links.
  · have hcount : ∀ t : Table κ ν,
        mergedCount t.entries = (t.entries.map (·.redirect)).countP (·.isSome) := by
      intro t
      rw [mergedCount, List.countP_map]
      congr 1
      funext e
      simp [Entry.isLive]
    rw [hcount, hsame.redirects, ← hcount, h.mergedCount_eq]
  · rw [hlength, hresolve]
    exact h.connected
  · rw [hlength, hresolve]
    exact h.alone
  · rw [hlength, hresolve]
    exact h.survives

/-- A new entry is connected to no other, and those that were there resolve as before. -/
theorem Linked.append {entry : Entry κ ν} (h : t.Linked merges) (hlive : entry.redirect = none)
    (hname : entry.name ∉ t.names) : (t.append entry).Linked merges := by
  have hlength : (t.append entry).entries.length = t.entries.length + 1 := by simp [Table.append]
  have hold : ∀ {c : Handle}, c.slot < t.entries.length →
      (t.append entry).resolve c = t.resolve c := fun hc => h.wellFormed.resolve_append hlive hc
  have hlt : ∀ {c : Handle}, c.slot < t.entries.length → (t.resolve c).slot < t.entries.length :=
    fun hc => (h.wellFormed.resolve_live hc).lt
  have hnew : (t.append entry).resolve ⟨t.entries.length⟩ = ⟨t.entries.length⟩ :=
    IsLive.resolve_eq ⟨entry, by simp [Table.append], hlive⟩
  have hcases : ∀ {c : Handle}, c.slot < (t.append entry).entries.length →
      c.slot < t.entries.length ∨ c = ⟨t.entries.length⟩ := by
    intro c hc
    rw [hlength] at hc
    exact (Nat.lt_succ_iff_lt_or_eq.mp hc).imp_right Handle.slot_inj.mp
  have hapart : ∀ {c : Handle}, c.slot < t.entries.length →
      (⟨t.entries.length⟩ : Handle) ≠ t.resolve c := by
    intro c hc heq
    have := hlt hc
    rw [← heq] at this
    exact Nat.lt_irrefl _ this
  -- Merges connect handles that were there before, so the new one stands alone.
  have hunconnected : ∀ {c : Handle}, c.slot < t.entries.length →
      ¬Connected merges ⟨t.entries.length⟩ c := by
    intro c hc hconnected
    have := hconnected.eq_of_forall (fun d => decide (d.slot < t.entries.length)) fun m hm => by
      simp [h.handles m hm]
    simp [hc] at this
  refine ⟨h.wellFormed.append hlive hname, fun m hm => ?_, ?_, fun a b ha hb => ?_,
    fun a ha halone => ?_, fun a earlier m later ha hmerges hreach hlast => ?_⟩
  · obtain ⟨hs, ht⟩ := h.handles m hm
    exact ⟨by omega, by omega⟩
  · rw [mergedCount_append hlive, h.mergedCount_eq]
  -- Two old handles, an old and the new one, the new and an old one, the new one twice.
  · rcases hcases ha with ha | rfl <;> rcases hcases hb with hb | rfl
    · rw [hold ha, hold hb, h.connected a b ha hb]
    · rw [hold ha, hnew]
      exact ⟨fun heq => absurd heq.symm (hapart ha),
        fun hconnected => absurd (.symm _ _ hconnected) (hunconnected ha)⟩
    · rw [hold hb, hnew]
      exact ⟨fun heq => absurd heq (hapart hb),
        fun hconnected => absurd hconnected (hunconnected hb)⟩
    · exact ⟨fun _ => .refl _, fun _ => rfl⟩
  · rcases hcases ha with ha | rfl
    · rw [hold ha]
      refine h.alone a ha fun m hm => ?_
      rw [← hold ha, ← hold (h.handles m hm).2]
      exact halone m hm
    · exact hnew
  · have htarget : ∀ n ∈ m :: later, n.target.slot < t.entries.length := fun n hn =>
      (h.handles n (hmerges ▸ List.mem_append_right _ hn)).2
    rcases hcases ha with ha | rfl
    · rw [hold ha] at hreach hlast ⊢
      rw [hold (htarget m List.mem_cons_self)] at hreach
      refine h.survives a earlier m later ha hmerges hreach fun n hn => ?_
      rw [← hold (htarget n (List.mem_cons_of_mem m hn))]
      exact hlast n hn
    -- The new handle reaches itself, so no merge is connected to it.
    · rw [hnew, hold (htarget m List.mem_cons_self)] at hreach
      exact absurd hreach (hapart (htarget m List.mem_cons_self))

/-- What a merge does to handles: those that reached what the source reached come to reach what
the target reached. -/
structure Joins (t after : Table κ ν) (source target : Handle) : Prop where
  source_lt : source.slot < t.entries.length
  target_lt : target.slot < t.entries.length
  ne : t.resolve source ≠ t.resolve target
  length_eq : after.entries.length = t.entries.length
  resolve_eq : ∀ a : Handle, a.slot < t.entries.length → after.resolve a =
    if t.resolve a = t.resolve source then t.resolve target else t.resolve a

section Joins

variable {after : Table κ ν} {source target : Handle}

theorem Joins.resolve_target (h : t.Joins after source target) :
    after.resolve target = t.resolve target := by
  rw [h.resolve_eq target h.target_lt, if_neg (Ne.symm h.ne)]

theorem Joins.resolve_congr (h : t.Joins after source target) (ha : a.slot < t.entries.length)
    (hb : b.slot < t.entries.length) (heq : t.resolve a = t.resolve b) :
    after.resolve a = after.resolve b := by
  rw [h.resolve_eq a ha, h.resolve_eq b hb, heq]

/-- A handle that does not reach what the target does reaches what it reached before. -/
theorem Joins.resolve_other (h : t.Joins after source target) (ha : a.slot < t.entries.length)
    (hapart : after.resolve a ≠ after.resolve target) : after.resolve a = t.resolve a := by
  rw [h.resolve_target, h.resolve_eq a ha] at hapart
  rw [h.resolve_eq a ha]
  split at hapart
  · exact absurd rfl hapart
  · rename_i hsplit
    rw [if_neg hsplit]

variable (last : Merge)

theorem Linked.handles_snoc (h : t.Linked merges) (hjoins : t.Joins after last.source last.target) :
    ∀ m ∈ merges ++ [last],
      m.source.slot < t.entries.length ∧ m.target.slot < t.entries.length := by
  intro m hm
  rcases List.mem_append.mp hm with hold | hlast
  · exact h.handles m hold
  · rw [List.mem_singleton.mp hlast]
    exact ⟨hjoins.source_lt, hjoins.target_lt⟩

/-- A merge connects what reached the source with what reached the target, and nothing else: handles
that resolve alike afterwards did so before, or one reached the source and one the target. -/
theorem Linked.connected_snoc (h : t.Linked merges)
    (hjoins : t.Joins after last.source last.target) (ha : a.slot < t.entries.length)
    (hb : b.slot < t.entries.length) :
    after.resolve a = after.resolve b ↔ Connected (merges ++ [last]) a b := by
  have hold : ∀ {c d : Handle}, c.slot < t.entries.length → d.slot < t.entries.length →
      t.resolve c = t.resolve d → Connected (merges ++ [last]) c d := fun hc hd heq =>
    ((h.connected _ _ hc hd).mp heq).mono (List.subset_append_left _ _)
  have hnew : Connected (merges ++ [last]) last.source last.target :=
    .rel _ _ ⟨last, List.mem_append_right _ List.mem_cons_self, rfl, rfl⟩
  have hs := hjoins.source_lt
  have ht := hjoins.target_lt
  constructor
  · intro heq
    rw [hjoins.resolve_eq a ha, hjoins.resolve_eq b hb] at heq
    -- Each of the two handles may have reached the source and been moved.
    by_cases has : t.resolve a = t.resolve last.source <;>
      by_cases hbs : t.resolve b = t.resolve last.source
    · exact hold ha hb (has.trans hbs.symm)
    · rw [if_pos has, if_neg hbs] at heq
      exact ((hold ha hs has).trans _ _ _ hnew).trans _ _ _ (hold ht hb heq)
    · rw [if_neg has, if_pos hbs] at heq
      exact ((hold ha ht heq).trans _ _ _ (hnew.symm _ _)).trans _ _ _ (hold hs hb hbs.symm)
    · rw [if_neg has, if_neg hbs] at heq
      exact hold ha hb heq
  · intro hab
    refine hab.eq_of_forall after.resolve fun m hm => ?_
    obtain ⟨hms, hmt⟩ := h.handles_snoc last hjoins m hm
    rcases List.mem_append.mp hm with hbefore | hlast
    · exact hjoins.resolve_congr hms hmt
        ((h.connected _ _ hms hmt).mpr (.rel _ _ ⟨m, hbefore, rfl, rfl⟩))
    · obtain rfl := List.mem_singleton.mp hlast
      rw [hjoins.resolve_target, hjoins.resolve_eq _ hms, if_pos rfl]

/-- What the last merge of its class left, a handle reaches. Either the new merge is that last one,
or the handle is apart from it and the statement is that of the merges before. -/
theorem Linked.survives_snoc (h : t.Linked merges)
    (hjoins : t.Joins after last.source last.target)
    (hsurvivor : last.survivor = t.resolve last.target) {earlier later : List Merge} {m : Merge}
    (ha : a.slot < t.entries.length) (hmerges : merges ++ [last] = earlier ++ m :: later)
    (hreach : after.resolve a = after.resolve m.target)
    (hlast : ∀ n ∈ later, after.resolve a ≠ after.resolve n.target) :
    after.resolve a = m.survivor := by
  rcases List.eq_nil_or_concat later with rfl | ⟨later, n, rfl⟩
  · obtain rfl : last = m := by simpa using (List.append_inj' hmerges rfl).2
    rw [hreach, hjoins.resolve_target, hsurvivor]
  · rw [List.concat_eq_append] at hmerges hlast
    rw [← List.cons_append, ← List.append_assoc] at hmerges
    obtain ⟨hbefore, hlasts⟩ := List.append_inj' hmerges rfl
    obtain rfl : last = n := by simpa using hlasts
    -- The handle is apart from the new merge, so it reaches what the earlier ones left.
    have hapart := hlast last (List.mem_append_right _ List.mem_cons_self)
    have htarget : ∀ n ∈ m :: later, n.target.slot < t.entries.length := fun n hn =>
      (h.handles n (hbefore ▸ List.mem_append_right _ hn)).2
    have hold := hjoins.resolve_other ha hapart
    rw [hold]
    refine h.survives a earlier m later ha hbefore ?_ fun n hn heq => ?_
    · have hm := htarget m List.mem_cons_self
      rw [← hold, hreach, hjoins.resolve_other hm (hreach ▸ hapart)]
    · exact hlast n (List.mem_append_left _ hn)
        (hjoins.resolve_congr ha (htarget n (List.mem_cons_of_mem m hn)) heq)

/-- A handle that no merge concerns reaches itself. -/
theorem Linked.alone_snoc (h : t.Linked merges)
    (hjoins : t.Joins after last.source last.target) (ha : a.slot < t.entries.length)
    (halone : ∀ m ∈ merges ++ [last], after.resolve a ≠ after.resolve m.target) :
    after.resolve a = a := by
  rw [hjoins.resolve_other ha (halone last (List.mem_append_right _ List.mem_cons_self))]
  refine h.alone a ha fun m hm heq => ?_
  exact halone m (List.mem_append_left _ hm) (hjoins.resolve_congr ha (h.handles m hm).2 heq)

end Joins

/-- A merge of what two handles reach adds itself to the merges, with what the target reached as the
survivor. -/
theorem Linked.mergeInto {source target : Handle} {hits : Nat} (h : t.Linked merges)
    (hsource : source.slot < t.entries.length) (htarget : target.slot < t.entries.length)
    (hne : t.resolve source ≠ t.resolve target) :
    (t.mergeInto (t.resolve source) (t.resolve target) hits).Linked
      (merges ++ [⟨source, target, t.resolve target⟩]) := by
  have hlives := h.wellFormed.resolve_live hsource
  have hlivet := h.wellFormed.resolve_live htarget
  obtain ⟨hwf, hresolve⟩ := @WellFormed.mergeInto _ _ t _ _ hits h.wellFormed hlives hlivet hne
  have hlength : (t.mergeInto (t.resolve source) (t.resolve target) hits).entries.length =
      t.entries.length := length_mergeInto
  have hjoins : t.Joins (t.mergeInto (t.resolve source) (t.resolve target) hits) source target :=
    ⟨hsource, htarget, hne, hlength, hresolve⟩
  refine ⟨hwf, ?_, ?_, ?_, ?_, ?_⟩
  · rw [hlength]
    exact h.handles_snoc ⟨source, target, t.resolve target⟩ hjoins
  · rw [mergedCount_mergeInto hlives, h.mergedCount_eq, List.length_append, List.length_singleton]
  · rw [hlength]
    exact fun a b ha hb =>
      h.connected_snoc ⟨source, target, t.resolve target⟩ hjoins ha hb
  · rw [hlength]
    exact fun a ha => h.alone_snoc ⟨source, target, t.resolve target⟩ hjoins ha
  · rw [hlength]
    exact fun a earlier m later ha =>
      h.survives_snoc ⟨source, target, t.resolve target⟩ hjoins rfl ha

/-! ### Calls

A history performs calls and writes them down. The record is made from what the calls return, not
from the insides of the table, so a caller could keep it. -/

/-- A call of one of the operations that change a table. Looking up names, values, hits and indices
changes nothing, so it is not among them. -/
inductive Call (κ ν : Type) where
  | add (name : κ) (value : ν)
  | dedupe (source target : κ)
  | dedupeHandles (source target : Handle)
  | finalize (ordering : TableOrdering) (keep : Entry κ ν → Bool)

/-- A table and the record of the calls that led to it. -/
structure History (κ ν : Type) where
  /-- The table as it is now. -/
  table : Table κ ν
  /-- The names that were added, with the handles returned for them. -/
  adds : List (κ × Handle) := []
  /-- The merges that were made. -/
  merges : List Merge := []

namespace History

/-- A new table. -/
def start (label : String) (checkDivergence : Bool) : History κ ν :=
  { table := .empty label checkDivergence }

/-- Some call returned the handle. -/
def Issued (past : History κ ν) (a : Handle) : Prop := ∃ name, (name, a) ∈ past.adds

/-- A call that succeeds is recorded with what it returned. -/
def apply [DecidableEq κ] [DecidableEq ν] [EntryName κ] (past : History κ ν) :
    Call κ ν → Except TableError (History κ ν)
  | .add name value => do
    let (handle, table) ← past.table.add name value
    .ok { past with table := table, adds := past.adds ++ [(name, handle)] }
  | .dedupe source target => do
    let table ← past.table.dedupe source target
    let source ← past.table.require source
    let target ← past.table.require target
    .ok { past with
      table := table
      merges := past.merges ++ [⟨source, target, past.table.resolve target⟩] }
  | .dedupeHandles source target => do
    let table ← past.table.dedupeHandles source target
    .ok { past with
      table := table
      merges := past.merges ++ [⟨source, target, past.table.resolve target⟩] }
  | .finalize ordering keep => .ok { past with table := past.table.finalize ordering keep }

/-- A call that fails changes nothing. -/
def perform [DecidableEq κ] [DecidableEq ν] [EntryName κ] (past : History κ ν) (call : Call κ ν) :
    History κ ν :=
  (past.apply call).toOption.getD past

/-- Performs calls one after another. -/
def run [DecidableEq κ] [DecidableEq ν] [EntryName κ] (past : History κ ν)
    (calls : List (Call κ ν)) : History κ ν :=
  calls.foldl perform past

/-- Handles that a call is given were returned by calls before. -/
def Admits (past : History κ ν) : Call κ ν → Prop
  | .dedupeHandles source target => past.Issued source ∧ past.Issued target
  | _ => True

/-- Handles that calls are given were returned by calls before them. -/
def AdmitsAll [DecidableEq κ] [DecidableEq ν] [EntryName κ] (past : History κ ν) :
    List (Call κ ν) → Prop
  | [] => True
  | call :: calls => past.Admits call ∧ (past.perform call).AdmitsAll calls

/-- What a call that succeeds does: it adds a name, merges what two handles reach, or finalizes.
There are no other cases, and each gives the call of the table it rests on. -/
inductive Applied [DecidableEq κ] [DecidableEq ν] [EntryName κ] (past : History κ ν) :
    Call κ ν → History κ ν → Prop
  | add {name : κ} {value : ν} {a : Handle} {table : Table κ ν}
      (hadd : past.table.add name value = .ok (a, table)) :
      Applied past (.add name value)
        { past with table := table, adds := past.adds ++ [(name, a)] }
  | dedupe {source target : κ} {a b : Handle} {table : Table κ ν}
      (hsource : past.table.get? source = some a) (htarget : past.table.get? target = some b)
      (hmerge : past.table.dedupeHandles a b = .ok table) :
      Applied past (.dedupe source target)
        { past with table := table, merges := past.merges ++ [⟨a, b, past.table.resolve b⟩] }
  | dedupeHandles {source target : Handle} {table : Table κ ν}
      (hmerge : past.table.dedupeHandles source target = .ok table) :
      Applied past (.dedupeHandles source target)
        { past with
          table := table
          merges := past.merges ++ [⟨source, target, past.table.resolve target⟩] }
  | finalize {ordering : TableOrdering} {keep : Entry κ ν → Bool} :
      Applied past (.finalize ordering keep)
        { past with table := past.table.finalize ordering keep }

variable {past : History κ ν} {table : Table κ ν}

theorem applied_of_apply [DecidableEq κ] [DecidableEq ν] [EntryName κ] {call : Call κ ν}
    {next : History κ ν} (hrun : past.apply call = .ok next) : past.Applied call next := by
  cases call with
  | add name value =>
      obtain ⟨⟨handle, table⟩, hadd, hnext⟩ := bind_eq_ok.mp hrun
      exact Except.ok.inj hnext ▸ .add hadd
  | dedupe source target =>
      obtain ⟨table, hdedupe, hnext⟩ := bind_eq_ok.mp hrun
      obtain ⟨a, b, ha, hb, hmerge⟩ := dedupe_eq_ok hdedupe
      rw [require_eq_ok.mpr ha, require_eq_ok.mpr hb, ok_bind, ok_bind] at hnext
      exact Except.ok.inj hnext ▸ .dedupe ha hb hmerge
  | dedupeHandles source target =>
      obtain ⟨table, hmerge, hnext⟩ := bind_eq_ok.mp hrun
      exact Except.ok.inj hnext ▸ .dedupeHandles hmerge
  | finalize ordering keep => exact Except.ok.inj hrun ▸ .finalize

theorem issued_snoc {name : κ} : ({ past with table := table, adds := past.adds ++ [(name, a)] } :
    History κ ν).Issued b ↔ past.Issued b ∨ b = a := by
  constructor
  · rintro ⟨other, hother⟩
    rcases List.mem_append.mp hother with hold | hlast
    · exact .inl ⟨other, hold⟩
    · exact .inr (Prod.mk.inj (List.mem_singleton.mp hlast)).2
  · rintro (⟨other, hother⟩ | rfl)
    · exact ⟨other, List.mem_append_left _ hother⟩
    · exact ⟨name, List.mem_append_right _ List.mem_cons_self⟩

variable [DecidableEq κ]

/-- The first handle recorded for a name stays the first. -/
theorem lookup_snoc {l : List (κ × Handle)} {name other : κ} :
    (l ++ [(name, a)]).lookup other = (l.lookup other).or (if name = other then some a else none) := by
  rw [List.lookup_append]
  by_cases h : name = other
  · simp [h]
  · rw [lookup_cons_of_ne (Ne.symm h), List.lookup_nil, if_neg h]

/-- The record agrees with the table: its merges with the links, its additions with the hits, the
names and the handles that were issued. -/
structure Agrees (past : History κ ν) : Prop where
  linked : past.table.Linked past.merges
  tallied : past.table.Tallied (past.adds.map (·.1))
  names_eq : past.table.names = (past.adds.map (·.1)).eraseDups
  slotOf?_eq : ∀ name, past.table.slotOf? name = past.adds.lookup name
  issued_iff : ∀ a, past.Issued a ↔ a.slot < past.table.entries.length

theorem agrees_start (label : String) (checkDivergence : Bool) :
    (start label checkDivergence : History κ ν).Agrees := by
  refine ⟨linked_empty label checkDivergence, tallied_empty label checkDivergence, rfl,
    fun _ => rfl, fun a => ⟨?_, fun ha => absurd ha (Nat.not_lt_zero _)⟩⟩
  rintro ⟨name, hname⟩
  simp [start] at hname

theorem Agrees.mem_names_iff (h : past.Agrees) {name : κ} :
    name ∈ past.table.names ↔ name ∈ past.adds.map (·.1) := by
  rw [h.names_eq, List.mem_eraseDups]

/-- A name that is in the table reaches a handle that was issued. -/
theorem Agrees.issued_of_get? (h : past.Agrees) {name : κ} (hget : past.table.get? name = some a) :
    past.Issued a :=
  (h.issued_iff a).mpr (h.linked.wellFormed.get?_live hget).lt

/-- Adding a name that is in the table changes neither names nor links. The handle returned is that
of the entry the name reaches, which need not be the one it was first given. -/
theorem Agrees.hit (h : past.Agrees) {name : κ} (hget : past.table.get? name = some a)
    (hsame : past.table.SameEntries table)
    (htallied : table.Tallied ((past.adds ++ [(name, a)]).map (·.1))) :
    Agrees { past with table := table, adds := past.adds ++ [(name, a)] } := by
  have hmem := mem_names_of_get? hget
  have hlength : table.entries.length = past.table.entries.length := by
    simpa using congrArg List.length hsame.redirects
  refine ⟨h.linked.congr hsame, htallied, ?_, fun other => ?_, fun b => ?_⟩
  · rw [hsame.names, h.names_eq, List.map_append, List.map_singleton, Firsts.eraseDups_snoc,
      if_pos (h.mem_names_iff.mp hmem)]
  · rw [slotOf?_congr hsame.names, h.slotOf?_eq, lookup_snoc]
    -- A name that is in the table has been added before, so the first handle for it stays.
    cases hlookup : past.adds.lookup other with
    | some first => rfl
    | none =>
        have hother : name ≠ other := by
          rintro rfl
          rw [← h.slotOf?_eq, slotOf?_eq_none_iff] at hlookup
          exact hlookup hmem
        rw [if_neg hother, Option.none_or]
  · rw [issued_snoc, hlength, ← h.issued_iff]
    exact or_iff_left_of_imp fun hb => hb ▸ h.issued_of_get? hget

/-- Adding a new name makes an entry that no merge concerns. -/
theorem Agrees.append (h : past.Agrees) {name : κ} {value : ν} (hget : past.table.get? name = none)
    (htallied : (past.table.append { name := name, value := value }).Tallied
      ((past.adds ++ [(name, (⟨past.table.entries.length⟩ : Handle))]).map (·.1))) :
    Agrees { past with
      table := past.table.append { name := name, value := value }
      adds := past.adds ++ [(name, ⟨past.table.entries.length⟩)] } := by
  have hnew := get?_eq_none_iff.mp hget
  have hnames : (past.table.append { name := name, value := value }).names =
      past.table.names ++ [name] := by
    simp [names, Table.append]
  have hlength : (past.table.append { name := name, value := value }).entries.length =
      past.table.entries.length + 1 := by
    simp [Table.append]
  refine ⟨h.linked.append rfl hnew, htallied, ?_, fun other => ?_, fun b => ?_⟩
  · rw [hnames, h.names_eq, List.map_append, List.map_singleton, Firsts.eraseDups_snoc,
      if_neg (mt h.mem_names_iff.mpr hnew)]
  · rw [slotOf?_append, h.slotOf?_eq, lookup_snoc]
  · rw [issued_snoc, hlength, Nat.lt_succ_iff_lt_or_eq, h.issued_iff]
    exact or_congr_right Handle.slot_inj.symm

/-- Adding a name returns the handle that the name reaches from then on. -/
theorem Agrees.add [DecidableEq ν] [EntryName κ] (h : past.Agrees) {name : κ} {value : ν}
    (hrun : past.table.add name value = .ok (a, table)) :
    Agrees { past with table := table, adds := past.adds ++ [(name, a)] } := by
  have htallied := h.tallied.add hrun
  have hlog : past.adds.map (·.1) ++ [name] = (past.adds ++ [(name, a)]).map (·.1) := by simp
  rw [hlog] at htallied
  obtain ⟨-, ⟨hget, rfl⟩ | ⟨hget, rfl, rfl⟩⟩ := add_eq_ok hrun
  · exact h.hit hget (past.table.sameEntries_addHits a 1) htallied
  · exact h.append hget htallied

/-- Merging adds no name, issues no handle, and adds itself to the merges. -/
theorem Agrees.dedupeHandles [EntryName κ] (h : past.Agrees) {source target : Handle}
    (hsource : past.Issued source) (htarget : past.Issued target)
    (hrun : past.table.dedupeHandles source target = .ok table) :
    Agrees { past with
      table := table
      merges := past.merges ++ [⟨source, target, past.table.resolve target⟩] } := by
  have hs := (h.issued_iff source).mp hsource
  have ht := (h.issued_iff target).mp htarget
  have htallied := h.tallied.dedupeHandles hs ht hrun
  obtain ⟨-, hne, rfl⟩ := dedupeHandles_eq_ok hrun
  have hnames : (past.table.mergeInto (past.table.resolve source) (past.table.resolve target)
      (past.table.hitCount source)).names = past.table.names := names_mergeInto
  refine ⟨h.linked.mergeInto hs ht hne, htallied, ?_, fun name => ?_, fun a => ?_⟩
  · rw [hnames, h.names_eq]
  · rw [slotOf?_congr hnames, h.slotOf?_eq]
  · rw [length_mergeInto]
    exact h.issued_iff a

theorem Agrees.finalize (h : past.Agrees) (ordering : TableOrdering) (keep : Entry κ ν → Bool) :
    Agrees { past with table := past.table.finalize ordering keep } := by
  have hsame := past.table.sameEntries_finalize ordering keep
  refine ⟨h.linked.congr hsame, h.tallied.finalize ordering keep, ?_, fun name => ?_, fun a => ?_⟩
  · rw [hsame.names, h.names_eq]
  · rw [slotOf?_congr hsame.names, h.slotOf?_eq]
  · have hlength := congrArg List.length hsame.redirects
    simp only [List.length_map] at hlength
    rw [hlength]
    exact h.issued_iff a

section Runs

variable [DecidableEq ν] [EntryName κ]

theorem Agrees.apply (h : past.Agrees) {call : Call κ ν} (hadmits : past.Admits call)
    {next : History κ ν} (hrun : past.apply call = .ok next) : next.Agrees := by
  cases applied_of_apply hrun with
  | add hadd => exact h.add hadd
  | dedupe hsource htarget hmerge =>
      exact h.dedupeHandles (h.issued_of_get? hsource) (h.issued_of_get? htarget) hmerge
  | dedupeHandles hmerge => exact h.dedupeHandles hadmits.1 hadmits.2 hmerge
  | finalize => exact h.finalize _ _

theorem Agrees.perform (h : past.Agrees) {call : Call κ ν} (hadmits : past.Admits call) :
    (past.perform call).Agrees := by
  rw [History.perform]
  cases hrun : past.apply call with
  | ok next => exact h.apply hadmits hrun
  | error e => exact h

theorem Agrees.run (h : past.Agrees) {calls : List (Call κ ν)} (hadmits : past.AdmitsAll calls) :
    (past.run calls).Agrees := by
  induction calls generalizing past with
  | nil => exact h
  | cons call calls ih => exact ih (h.perform hadmits.1) hadmits.2

end Runs

/-! ### What a history shows -/

/-- A table is the union-find of its merges over the names that were added to it, and counts
how often they were. -/
structure CountedUnionFind (past : History κ ν) : Prop where
  /-- Following links from an issued handle comes to an end, at a live entry. -/
  resolves : ∀ a, past.Issued a → (∃ links, Chain past.table.entries a links (past.table.resolve a)) ∧
    past.table.IsLive (past.table.resolve a)
  /-- Handles reach one entry if and only if merges connect them. -/
  resolve_eq_iff : ∀ a b, past.Issued a → past.Issued b →
    (past.table.resolve a = past.table.resolve b ↔ Connected past.merges a b)
  /-- A handle that no merge is connected to reaches itself. -/
  resolve_alone : ∀ a, past.Issued a → (∀ m ∈ past.merges, ¬Connected past.merges a m.target) →
    past.table.resolve a = a
  /-- A handle reaches what the target of the last merge connected to it resolved to. -/
  resolve_last : ∀ a earlier m later, past.Issued a → past.merges = earlier ++ m :: later →
    Connected past.merges a m.target → (∀ n ∈ later, ¬Connected past.merges a n.target) →
    past.table.resolve a = m.survivor
  /-- A name reaches what the handle first returned for it reaches. -/
  get?_eq : ∀ name, past.table.get? name = (past.adds.lookup name).map past.table.resolve
  /-- The size is the number of live entries. -/
  size_eq : past.table.size = past.table.live.length
  /-- Every added name has an entry, and every merge takes one away. -/
  size_add_merges : past.table.size + past.merges.length = (past.adds.map (·.1)).eraseDups.length
  /-- Every addition counts as a hit of one live entry. -/
  total : (past.table.live.map (·.2.hitCount)).foldr (· + ·) 0 = past.adds.length
  /-- Handles and hits stay below the number of additions. -/
  bounded : (∀ a, past.Issued a → a.slot < past.adds.length) ∧
    ∀ a, past.table.IsLive a → past.table.hitCount a ≤ past.adds.length

theorem Agrees.countedUnionFind (h : past.Agrees) : past.CountedUnionFind := by
  have hlinked := h.linked
  have hlt : ∀ {c : Handle}, past.Issued c → c.slot < past.table.entries.length :=
    fun hc => (h.issued_iff _).mp hc
  have hlength : past.table.entries.length = (past.adds.map (·.1)).eraseDups.length := by
    rw [← h.names_eq, names, List.length_map]
  have htarget : ∀ m ∈ past.merges, m.target.slot < past.table.entries.length := fun m hm =>
    (hlinked.handles m hm).2
  refine ⟨fun a ha => ⟨?_, hlinked.wellFormed.resolve_live (hlt ha)⟩,
    fun a b ha hb => hlinked.connected a b (hlt ha) (hlt hb), fun a ha halone => ?_,
    fun a earlier m later ha hmerges hm hlater => ?_, fun name => ?_, past.table.length_live.symm, ?_,
    ?_, fun a ha => ?_, fun a ha => ?_⟩
  -- Chains of links are shorter than the table, so following them comes to an end.
  · obtain ⟨k, b, hchain, hk, -⟩ := hlinked.wellFormed.chains a (hlt ha)
    exact ⟨k, resolve_of_chain hchain hk ▸ hchain⟩
  · refine hlinked.alone a (hlt ha) fun m hm heq => halone m hm ?_
    exact (hlinked.connected a m.target (hlt ha) (htarget m hm)).mp heq
  · have hkept : ∀ n ∈ m :: later, n.target.slot < past.table.entries.length := fun n hn =>
      htarget n (hmerges ▸ List.mem_append_right _ hn)
    refine hlinked.survives a earlier m later (hlt ha) hmerges ?_ fun n hn heq => hlater n hn ?_
    · exact (hlinked.connected a m.target (hlt ha) (hkept m List.mem_cons_self)).mpr hm
    · exact (hlinked.connected a n.target (hlt ha) (hkept n (List.mem_cons_of_mem m hn))).mp heq
  · rw [get?, h.slotOf?_eq]
  · rw [← hlinked.mergedCount_eq, size_add_mergedCount, hlength]
  · rw [h.tallied.total, List.length_map]
  -- There are at most as many entries as additions, for each entry was added first.
  · have hle := ((Firsts.nodup_eraseDups (past.adds.map (·.1))).subperm
      fun name hname => List.mem_eraseDups.mp hname).length_le
    rw [List.length_map] at hle
    exact Nat.lt_of_lt_of_le (hlength ▸ hlt ha) hle
  · have hle := h.tallied.hitCount_le ha
    rwa [List.length_map] at hle

/-- Whatever is called on a new table in whatever order, it is a counted union-find. The only
condition is that handles are those that calls returned. -/
theorem countedUnionFind_run [DecidableEq ν] [EntryName κ] (label : String) (checkDivergence : Bool)
    {calls : List (Call κ ν)}
    (h : (start label checkDivergence).AdmitsAll calls) :
    ((start label checkDivergence).run calls).CountedUnionFind :=
  ((agrees_start label checkDivergence).run h).countedUnionFind

/-- Three names, of which the first is merged into the second, and both into the third. Adding the
first name with its old value fails, and so do merging the class with itself and adding a name once
the table is finalized. -/
def threeNames : List (Call String Nat) :=
  [.add "a" 1, .add "b" 2, .add "c" 3, .dedupe "a" "b", .add "a" 2, .add "a" 1,
    .dedupeHandles ⟨1⟩ ⟨2⟩, .dedupe "a" "c", .finalize .hitCountDescending fun _ => true, .add "d" 4]

/-- All three names reach the third one, which has the hits of all. -/
theorem countedUnionFind_threeNames :
    ((start "Names" true).run threeNames).CountedUnionFind ∧
      ["a", "b", "c", "d"].map ((start "Names" true).run threeNames).table.get? =
        [some ⟨2⟩, some ⟨2⟩, some ⟨2⟩, none] ∧
      ((start "Names" true).run threeNames).table.hitCount ⟨2⟩ = 4 := by
  refine ⟨countedUnionFind_run "Names" true ?_, by decide +kernel, by decide +kernel⟩
  exact ⟨trivial, trivial, trivial, trivial, trivial, trivial,
    ⟨⟨"b", by decide +kernel⟩, ⟨"c", by decide +kernel⟩⟩, trivial, trivial, trivial, trivial⟩

end History

end Table

end SyntaxPack
