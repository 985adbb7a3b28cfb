import SyntaxPack.Module.Header
import SyntaxPack.Proofs.Reader
/-!
# SyntaxPack.Proofs.Header

Header and directory are read off the front of a module, and the counts of a
directory add up without overflow.

Every count has 32 bits, and so has the number of object tables. The number of
all nodes is therefore below `2 ^ 64`, whatever the bytes.
-/

namespace SyntaxPack

namespace Read

variable {α : Type}

/-- Every item of a repeated read comes from a successful run, and there are as many
as were asked for. -/
theorem replicate_eq_ok {count : Nat} {read : Read α} {r r' : Reader} {items : List α}
    (h : replicate count read r = .ok items r') :
    items.length = count ∧ ∀ a ∈ items, ∃ s s', read s = .ok a s' := by
  suffices ∀ (more : Nat) (done : List α) (s : Reader), replicate.go read more done s = .ok items r' →
      (∀ a ∈ done, ∃ s s', read s = .ok a s') →
      items.length = done.length + more ∧ ∀ a ∈ items, ∃ s s', read s = .ok a s' by
    simpa using this count [] r h
  intro more
  induction more with
  | zero =>
      intro done s h hdone
      obtain ⟨rfl, rfl⟩ := run_pure_eq_ok.mp h
      simpa using hdone
  | succ more ih =>
      intro done s h hdone
      obtain ⟨a, t, hread, h₁⟩ := run_bind_eq_ok.mp h
      obtain ⟨hlength, hitems⟩ := ih (a :: done) t h₁ fun b hb => by
        rcases List.mem_cons.mp hb with rfl | hb
        · exact ⟨s, t, hread⟩
        · exact hdone b hb
      refine ⟨?_, hitems⟩
      rw [hlength, List.length_cons]
      omega

/-- A number of 32 bits is below `2 ^ 32`. -/
theorem lt_of_nat32 {r r' : Reader} {n : Nat} (h : nat32 r = .ok n r') : n < UInt32.size := by
  obtain ⟨bytes, t, hbytes, h₁⟩ := run_bind_eq_ok.mp h
  obtain ⟨rfl, rfl⟩ := run_pure_eq_ok.mp h₁
  have hlt := Bytes.number_lt bytes
  rwa [length_of_bytes hbytes] at hlt

end Read

namespace Module

open Read

theorem readMagic_eq_ok {r r' : Reader} {u : Unit} (h : readMagic r = .ok u r') :
    r.unread = magic ++ r'.unread ∧ r' = r.skip magic.length := by
  simp only [readMagic] at h
  split at h
  · rename_i front rest hsplit
    obtain ⟨hunread, hlength⟩ := Bytes.splitFront_eq_some_iff.mp hsplit
    split at h
    · rename_i hmagic
      simp only [EStateM.Result.ok.injEq, true_and] at h
      subst h hmagic
      exact ⟨hunread, by rw [Reader.skip, hunread, List.drop_left]⟩
    · simp at h
  · simp at h

theorem consumes_readMagic : readMagic.Consumes 0 := by
  intro r u r' h
  obtain ⟨hunread, hskip⟩ := readMagic_eq_ok h
  exact ⟨magic.length, Nat.zero_le _, by simp [Reader.remaining, hunread], hskip⟩

theorem consumes_readLayout : readLayout.Consumes 0 := by
  refine (consumes_byte.mono (Nat.zero_le _)).bind_right fun byte => ?_
  split
  · exact consumes_fail _ 0
  · refine (consumes_byte.mono (Nat.zero_le _)).bind_right fun flags => ?_
    split
    · exact consumes_fail _ 0
    · exact consumes_pure _

theorem consumes_readHeader : readHeader.Consumes 0 := by
  refine consumes_readMagic.bind_right fun _ =>
    (consumes_text.mono (Nat.zero_le _)).bind_right fun name => ?_
  exact consumes_ite ((consumes_fail _ 0).bind_right fun _ => consumes_readLayout)
    consumes_readLayout

theorem consumes_readDirectoryTable : readDirectoryTable.Consumes 8 :=
  consumes_nat32.bind fun _ => consumes_nat32.bind_left fun _ => consumes_pure _

theorem consumes_readDirectoryTables : readDirectoryTables.Consumes 0 := by
  refine (consumes_nat32.mono (Nat.zero_le _)).bind_right fun count =>
    consumes_get.bind_right fun r => ?_
  have htables := (consumes_replicate consumes_readDirectoryTable count).mono (Nat.zero_le _)
  exact consumes_ite ((consumes_fail _ 0).bind_right fun _ => htables) htables

theorem consumes_map {α β : Type} {read : Read α} {f : α → β} {n : Nat} (h : read.Consumes n) :
    Consumes (f <$> read) n := by
  rw [map_eq_pure_bind]
  exact h.bind_left fun _ => consumes_pure _

theorem consumes_readObjectDirectory (wire : WireFormat) :
    (readObjectDirectory wire).Consumes 0 :=
  consumes_ite (consumes_map consumes_readDirectoryTables)
    (consumes_map (consumes_nat32.mono (Nat.zero_le _)))

theorem consumes_readDirectory (wire : WireFormat) : (readDirectory wire).Consumes 0 := by
  have hnat32 := consumes_nat32.mono (Nat.zero_le 4)
  exact hnat32.bind_right fun tags => hnat32.bind_right fun strings =>
    hnat32.bind_right fun arrays => (consumes_readObjectDirectory wire).bind_right fun objects =>
      consumes_pure _

/-! ### Counts -/

/-- A sum of numbers below a bound. -/
theorem sum_le_of_lt {counts : List Nat} {bound : Nat} (h : ∀ n ∈ counts, n < bound) :
    counts.foldr (· + ·) 0 ≤ counts.length * (bound - 1) := by
  induction counts with
  | nil => simp
  | cons n counts ih =>
      have hn := h n List.mem_cons_self
      have := ih fun m hm => h m (List.mem_cons_of_mem n hm)
      rw [List.foldr_cons, List.length_cons, Nat.succ_mul]
      omega

theorem lt_of_readDirectoryTable {r r' : Reader} {table : Nat × Nat}
    (h : readDirectoryTable r = .ok table r') :
    table.1 < UInt32.size ∧ table.2 < UInt32.size := by
  obtain ⟨tag, s, htag, h₁⟩ := run_bind_eq_ok.mp h
  obtain ⟨count, t, hcount, h₂⟩ := run_bind_eq_ok.mp h₁
  obtain ⟨rfl, -⟩ := run_pure_eq_ok.mp h₂
  exact ⟨lt_of_nat32 htag, lt_of_nat32 hcount⟩

/-- There are fewer than `2 ^ 32` object tables, each with fewer than `2 ^ 32`
objects. -/
theorem bounds_of_readDirectoryTables {r r' : Reader} {tables : List (Nat × Nat)}
    (h : readDirectoryTables r = .ok tables r') :
    tables.length < UInt32.size ∧ ∀ table ∈ tables, table.2 < UInt32.size := by
  obtain ⟨count, s, hcount, h₁⟩ := run_bind_eq_ok.mp h
  obtain ⟨_, _, hget, h₂⟩ := run_bind_eq_ok.mp h₁
  simp only [run_get, EStateM.Result.ok.injEq] at hget
  obtain ⟨rfl, rfl⟩ := hget
  split at h₂
  · simp only [run_fail_bind, reduceCtorEq] at h₂
  · obtain ⟨hlength, hitems⟩ := replicate_eq_ok h₂
    refine ⟨hlength ▸ lt_of_nat32 hcount, fun table htable => ?_⟩
    obtain ⟨t, t', hread⟩ := hitems table htable
    exact (lt_of_readDirectoryTable hread).2

/-- Every count of a directory has 32 bits. -/
structure Directory.Counts32 (d : Directory) : Prop where
  tags : d.tags < UInt32.size
  strings : d.strings < UInt32.size
  arrays : d.arrays < UInt32.size
  tables : d.objects.counts.length < UInt32.size
  objects : ∀ n ∈ d.objects.counts, n < UInt32.size

theorem bounds_of_readObjectDirectory {wire : WireFormat} {r r' : Reader} {d : ObjectDirectory}
    (h : readObjectDirectory wire r = .ok d r') :
    d.counts.length < UInt32.size ∧ ∀ n ∈ d.counts, n < UInt32.size := by
  simp only [readObjectDirectory] at h
  split at h
  · rw [map_eq_pure_bind, run_bind_eq_ok] at h
    obtain ⟨tables, s, htables, h₁⟩ := h
    obtain ⟨rfl, -⟩ := run_pure_eq_ok.mp h₁
    obtain ⟨hlength, hitems⟩ := bounds_of_readDirectoryTables htables
    simp only [ObjectDirectory.counts, List.length_map, List.mem_map]
    refine ⟨hlength, ?_⟩
    rintro n ⟨table, htable, rfl⟩
    exact hitems table htable
  · rw [map_eq_pure_bind, run_bind_eq_ok] at h
    obtain ⟨count, s, hcount, h₁⟩ := h
    obtain ⟨rfl, -⟩ := run_pure_eq_ok.mp h₁
    simp only [ObjectDirectory.counts, List.length_singleton, List.mem_singleton]
    refine ⟨by decide, ?_⟩
    rintro n rfl
    exact lt_of_nat32 hcount

theorem counts32_of_readDirectory {wire : WireFormat} {r r' : Reader} {d : Directory}
    (h : readDirectory wire r = .ok d r') : d.Counts32 := by
  obtain ⟨tags, s, htags, h₁⟩ := run_bind_eq_ok.mp h
  obtain ⟨strings, t, hstrings, h₂⟩ := run_bind_eq_ok.mp h₁
  obtain ⟨arrays, u, harrays, h₃⟩ := run_bind_eq_ok.mp h₂
  obtain ⟨objects, v, hobjects, h₄⟩ := run_bind_eq_ok.mp h₃
  obtain ⟨rfl, -⟩ := run_pure_eq_ok.mp h₄
  obtain ⟨htables, hcounts⟩ := bounds_of_readObjectDirectory hobjects
  exact ⟨lt_of_nat32 htags, lt_of_nat32 hstrings, lt_of_nat32 harrays, htables, hcounts⟩

/-- The sums of a directory's counts stay below `2 ^ 64`. -/
theorem Directory.Counts32.nodeEntries_lt {d : Directory} (h : d.Counts32) :
    d.objectEntries ≤ d.nodeEntries ∧ d.nodeEntries < UInt64.size := by
  have hsum := sum_le_of_lt h.objects
  have hlength := h.tables
  have harrays := h.arrays
  have hobjects : d.objectEntries ≤ (UInt32.size - 1) * (UInt32.size - 1) :=
    Nat.le_trans hsum (Nat.mul_le_mul_right _ (by omega))
  simp only [Directory.nodeEntries, UInt32.size, UInt64.size] at *
  omega

end Module

end SyntaxPack
