import SyntaxPack.Module.Decode
import SyntaxPack.Proofs.Streams
/-!
# SyntaxPack.Proofs.Decode.Steps

What each step of decoding can do.

One lemma per step takes a successful run apart into the runs of its parts, with
every check that must have passed. Termination, the bound on nodes and the
soundness of decoding are all read off these lemmas, so none of them unfolds a
step itself.
-/

namespace SyntaxPack

namespace Module

namespace Decode

variable {α β : Type} {s t : DecodeState}

@[simp] theorem run_fail {error : DecodeError} :
    (fail error : Decode α) s = .error (.decode error) s := rfl

theorem run_fail_bind {error : DecodeError} {next : α → Decode β} :
    (fail error >>= next) s = .error (.decode error) s := rfl

/-! ### Primitives -/

theorem check_eq_ok {result : Except DecodeError α} {a : α} :
    check result s = .ok a t ↔ result = .ok a ∧ t = s := by
  cases result with
  | ok b => simp [check, eq_comm]
  | error e => simp [check]

theorem ensure_eq_ok {p : Prop} [Decidable p] {error : Error} {u : Unit} :
    ensure p error s = .ok u t ↔ p ∧ t = s := by
  by_cases hp : p
  · simp [ensure, hp, eq_comm]
  · simp [ensure, hp]

theorem require_eq_ok {found : Option α} {error : DecodeError} {a : α} :
    require found error s = .ok a t ↔ found = some a ∧ t = s := by
  cases found with
  | some b => simp [require, eq_comm]
  | none => simp [require]

theorem fromInput_eq_ok {read : Read α} {a : α} : fromInput read s = .ok a t ↔
    ∃ rest, read s.input = .ok a rest ∧ t = { s with input := rest } := by
  simp only [fromInput, EStateM.run]
  cases h : read s.input with
  | ok b rest =>
      simp only [EStateM.Result.ok.injEq]
      constructor
      · rintro ⟨rfl, rfl⟩
        exact ⟨rest, ⟨rfl, rfl⟩, rfl⟩
      · rintro ⟨rest', ⟨rfl, rfl⟩, rfl⟩
        exact ⟨rfl, rfl⟩
  | error e rest => simp

theorem fromSection_eq_ok {read : Read α} {a : α} : fromSection read s = .ok a t ↔
    ∃ rest, read s.source.body = .ok a rest ∧
      t = { s with source := { s.source with body := rest } } := by
  simp only [fromSection, EStateM.run]
  cases h : read s.source.body with
  | ok b rest =>
      simp only [EStateM.Result.ok.injEq]
      constructor
      · rintro ⟨rfl, rfl⟩
        exact ⟨rest, ⟨rfl, rfl⟩, rfl⟩
      · rintro ⟨rest', ⟨rfl, rfl⟩, rfl⟩
        exact ⟨rfl, rfl⟩
  | error e rest => simp

theorem fromStream_eq_ok {stream : Nat} {read : Read α} {a : α} :
    fromStream stream read s = .ok a t ↔ ∃ reader rest, s.source.route stream = .ok reader ∧
      read reader = .ok a rest ∧ t = { s with source := s.source.advance stream rest } := by
  simp only [fromStream, EStateM.run]
  cases hroute : s.source.route stream with
  | error e => simp
  | ok reader =>
      simp only [Except.ok.injEq, exists_and_left, exists_eq_left']
      cases h : read reader with
      | ok b rest =>
          simp only [EStateM.Result.ok.injEq]
          constructor
          · rintro ⟨rfl, rfl⟩
            exact ⟨rest, ⟨rfl, rfl⟩, rfl⟩
          · rintro ⟨rest', ⟨rfl, rfl⟩, rfl⟩
            exact ⟨rfl, rfl⟩
      | error e rest => simp

theorem offset_eq_ok {n : Nat} : Decode.offset s = .ok n t ↔ n = s.source.body.offset ∧ t = s := by
  rw [Decode.offset, fromSection_eq_ok]
  simp only [Read.offset, EStateM.Result.ok.injEq]
  constructor
  · rintro ⟨rest, ⟨rfl, rfl⟩, rfl⟩
    exact ⟨rfl, rfl⟩
  · rintro ⟨rfl, rfl⟩
    exact ⟨_, ⟨rfl, rfl⟩, rfl⟩

/-- A section is decoded from its own bytes and to their end. -/
theorem inSection_eq_ok {label : String} {content : Decode α} {a : α} :
    inSection label content s = .ok a t ↔ ∃ body input, Read.substream s.input = .ok body input ∧
      content { s with input := input, source := { s.source with body := body } } = .ok a t ∧
      t.source.body.expectEnd label = .ok () := by
  simp only [inSection, run_bind_eq_ok, fromInput_eq_ok, run_modify, run_get, run_pure_eq_ok,
    check_eq_ok, EStateM.Result.ok.injEq]
  constructor
  · rintro ⟨body, _, ⟨input, hread, rfl⟩, _, _, ⟨-, rfl⟩, b, u, hcontent, _, _, ⟨rfl, rfl⟩, _, _,
      ⟨hend, rfl⟩, rfl, rfl⟩
    exact ⟨body, input, hread, hcontent, hend⟩
  · rintro ⟨body, input, hread, hcontent, hend⟩
    exact ⟨body, _, ⟨input, hread, rfl⟩, ⟨⟩, _, ⟨trivial, rfl⟩, a, t, hcontent, t, t, ⟨rfl, rfl⟩,
      (), t, ⟨hend, rfl⟩, rfl, rfl⟩

theorem count_eq_ok {label : String} {expected : Nat} {u : Unit} :
    Decode.count label expected s = .ok u t ↔ ∃ rest,
      Read.nat32 s.source.body = .ok expected rest ∧
      t = { s with source := { s.source with body := rest } } := by
  simp only [Decode.count, run_bind_eq_ok, fromSection_eq_ok, ensure_eq_ok]
  constructor
  · rintro ⟨found, _, ⟨rest, hread, rfl⟩, rfl, rfl⟩
    exact ⟨rest, hread, rfl⟩
  · rintro ⟨rest, hread, rfl⟩
    exact ⟨expected, _, ⟨rest, hread, rfl⟩, rfl, rfl⟩

/-! ### Repetition -/

/-- What holds before a repetition and is kept by each of its steps holds after
it. `motive` may speak of the results so far, in their order. -/
theorem replicate_induction {motive : List α → DecodeState → Prop} {count : Nat}
    {step : Nat → Decode α} {items : List α} (h : replicate count step s = .ok items t)
    (start : motive [] s)
    (next : ∀ before u a v, before.length < count → motive before u →
      step before.length u = .ok a v → motive (before ++ [a]) v) :
    items.length = count ∧ motive items t := by
  suffices ∀ (more index : Nat) (results : List α) (u : DecodeState),
      replicate.go step more index results u = .ok items t → index + more = count →
      results.length = index → motive results.reverse u → items.length = count ∧ motive items t by
    exact this count 0 [] s h (Nat.zero_add _) rfl start
  intro more
  induction more with
  | zero =>
      intro index results u h hcount hlength hmotive
      obtain ⟨rfl, rfl⟩ := run_pure_eq_ok.mp h
      exact ⟨by simp; omega, hmotive⟩
  | succ more ih =>
      intro index results u h hcount hlength hmotive
      obtain ⟨a, v, hstep, h⟩ := run_bind_eq_ok.mp h
      refine ih (index + 1) (a :: results) v h (by omega) (by simp [hlength]) ?_
      rw [List.reverse_cons]
      refine next _ u a v (by simp; omega) hmotive ?_
      rwa [List.length_reverse, hlength]

/-- A repetition that can always go on comes to its end. -/
theorem replicate_progress {motive : List α → DecodeState → Prop} {count : Nat}
    {step : Nat → Decode α} (start : motive [] s)
    (next : ∀ before u, before.length < count → motive before u →
      ∃ a v, step before.length u = .ok a v ∧ motive (before ++ [a]) v) :
    ∃ items t, replicate count step s = .ok items t ∧ items.length = count ∧ motive items t := by
  suffices ∀ (more : Nat) (results : List α) (u : DecodeState), results.length + more = count →
      motive results.reverse u → ∃ items t, replicate.go step more results.length results u =
        .ok items t ∧ items.length = count ∧ motive items t by
    exact this count [] s (Nat.zero_add _) start
  intro more
  induction more with
  | zero =>
      intro results u hcount hmotive
      exact ⟨results.reverse, u, rfl, by simp; omega, hmotive⟩
  | succ more ih =>
      intro results u hcount hmotive
      obtain ⟨a, v, hstep, hnext⟩ := next results.reverse u (by simp; omega) hmotive
      rw [List.length_reverse] at hstep
      rw [← List.reverse_cons] at hnext
      obtain ⟨items, t, hrun, hlength, hend⟩ := ih (a :: results) v (by simp; omega) hnext
      refine ⟨items, t, ?_, hlength, hend⟩
      rw [replicate.go, run_bind_of_ok hstep]
      exact hrun

/-- Steps that agree wherever a repetition gets to make repetitions that agree. -/
theorem replicate_congr {motive : Nat → DecodeState → Prop} {count : Nat} {f g : Nat → Decode α}
    (start : motive 0 s) (agree : ∀ i u, i < count → motive i u → f i u = g i u)
    (next : ∀ i u a v, i < count → motive i u → f i u = .ok a v → motive (i + 1) v) :
    replicate count f s = replicate count g s := by
  suffices ∀ (more index : Nat) (results : List α) (u : DecodeState), index + more = count →
      motive index u → replicate.go f more index results u = replicate.go g more index results u by
    exact this count 0 [] s (Nat.zero_add _) start
  intro more
  induction more with
  | zero => intro index results u hcount hmotive; rfl
  | succ more ih =>
      intro index results u hcount hmotive
      have hfg := agree index u (by omega) hmotive
      simp only [replicate.go]
      calc (f index >>= fun a => replicate.go f more (index + 1) (a :: results)) u
          = (f index >>= fun a => replicate.go g more (index + 1) (a :: results)) u :=
            run_bind_congr fun a v hv =>
              ih (index + 1) (a :: results) v (by omega) (next index u a v (by omega) hmotive hv)
        _ = (g index >>= fun a => replicate.go g more (index + 1) (a :: results)) u := by
            simp only [bind, EStateM.bind, hfg]

end Decode

end Module

end SyntaxPack
