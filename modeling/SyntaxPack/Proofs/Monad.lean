import Mathlib.Data.List.Forall2
/-!
# SyntaxPack.Proofs.Monad

What a run of a `do` block says about the runs of its steps.

Readers and decoders are `EStateM` programs, writers and checks are `Except`
programs. For both there is one lemma that takes a successful sequence apart,
one that runs a sequence whose first step is known, and one that replaces the
rest of a sequence by another one that agrees with it wherever it is reached.
-/

namespace SyntaxPack

/-! ### Programs with a state -/

section State

variable {ε σ α β : Type}

/-- A sequence succeeds if and only if both of its steps do. -/
theorem run_bind_eq_ok {x : EStateM ε σ α} {f : α → EStateM ε σ β} {s s' : σ} {b : β} :
    (x >>= f) s = .ok b s' ↔ ∃ a t, x s = .ok a t ∧ f a t = .ok b s' := by
  simp only [bind, EStateM.bind]
  cases h : x s with
  | ok a t => simp
  | error e t => simp

/-- A sequence fails in its first step or after it. -/
theorem run_bind_eq_error {x : EStateM ε σ α} {f : α → EStateM ε σ β} {s s' : σ} {e : ε} :
    (x >>= f) s = .error e s' ↔ x s = .error e s' ∨ ∃ a t, x s = .ok a t ∧ f a t = .error e s' := by
  simp only [bind, EStateM.bind]
  cases h : x s with
  | ok a t => simp
  | error e t => simp

/-- A sequence goes on from where its first step ended. -/
theorem run_bind_of_ok {x : EStateM ε σ α} {f : α → EStateM ε σ β} {s t : σ} {a : α}
    (h : x s = .ok a t) : (x >>= f) s = f a t := by
  simp only [bind, EStateM.bind, h]

/-- A sequence fails with the error of its first step. -/
theorem run_bind_of_error {x : EStateM ε σ α} {f : α → EStateM ε σ β} {s t : σ} {e : ε}
    (h : x s = .error e t) : (x >>= f) s = .error e t := by
  simp only [bind, EStateM.bind, h]

/-- Two sequences with the same first step agree if their rests agree on what the
first step can lead to. -/
theorem run_bind_congr {x : EStateM ε σ α} {f g : α → EStateM ε σ β} {s : σ}
    (h : ∀ a t, x s = .ok a t → f a t = g a t) : (x >>= f) s = (x >>= g) s := by
  cases hx : x s with
  | ok a t => rw [run_bind_of_ok hx, run_bind_of_ok hx, h a t hx]
  | error e t => rw [run_bind_of_error hx, run_bind_of_error hx]

/-- Two sequences agree if their first steps do, and their rests wherever the first
step leads to. -/
theorem run_bind_congr_of_eq {x y : EStateM ε σ α} {f g : α → EStateM ε σ β} {s : σ}
    (hxy : x s = y s) (h : ∀ a t, y s = .ok a t → f a t = g a t) :
    (x >>= f) s = (y >>= g) s := by
  rw [← run_bind_congr h]
  simp only [bind, EStateM.bind, hxy]

theorem run_pure_eq_ok {s s' : σ} {a b : α} :
    (pure a : EStateM ε σ α) s = .ok b s' ↔ a = b ∧ s = s' := by
  simp only [pure, EStateM.pure, EStateM.Result.ok.injEq]

@[simp] theorem run_pure {s : σ} {a : α} : (pure a : EStateM ε σ α) s = .ok a s := rfl

@[simp] theorem run_throw {s : σ} {e : ε} : (throw e : EStateM ε σ α) s = .error e s := rfl

@[simp] theorem run_get {s : σ} : (get : EStateM ε σ σ) s = .ok s s := rfl

@[simp] theorem run_modify {s : σ} {f : σ → σ} :
    (modify f : EStateM ε σ PUnit) s = .ok ⟨⟩ (f s) := rfl

/-- What holds before a program is run on every item of a list and is kept by each
run holds in the end. `motive` speaks of the items done and of their results. -/
theorem run_mapM_induction {motive : List α → List β → σ → Prop} {f : α → EStateM ε σ β}
    {xs : List α} {ys : List β} {s s' : σ} (h : xs.mapM f s = .ok ys s') (start : motive [] [] s)
    (next : ∀ done results x y t u, x ∈ xs → motive done results t → f x t = .ok y u →
      motive (done ++ [x]) (results ++ [y]) u) : motive xs ys s' := by
  suffices ∀ (rest done : List α) (results ys : List β) (t : σ), (∀ x ∈ rest, x ∈ xs) →
      motive done results t → rest.mapM f t = .ok ys s' → motive (done ++ rest) (results ++ ys) s' by
    simpa using this xs [] [] ys s (fun _ hx => hx) start h
  intro rest
  induction rest with
  | nil =>
      intro done results ys t hmem hmotive h
      rw [List.mapM_nil, run_pure_eq_ok] at h
      obtain ⟨rfl, rfl⟩ := h
      simpa using hmotive
  | cons x rest ih =>
      intro done results ys t hmem hmotive h
      rw [List.mapM_cons, run_bind_eq_ok] at h
      obtain ⟨y, u, hx, h₁⟩ := h
      obtain ⟨zs, v, hrest, h₂⟩ := run_bind_eq_ok.mp h₁
      obtain ⟨rfl, rfl⟩ := run_pure_eq_ok.mp h₂
      have hnext := next done results x y t u (hmem x List.mem_cons_self) hmotive hx
      have := ih _ _ zs u (fun z hz => hmem z (List.mem_cons_of_mem x hz)) hnext hrest
      simpa using this

/-- Programs that agree wherever a run over a list gets to make runs that agree. -/
theorem run_mapM_congr {motive : σ → Prop} {f g : α → EStateM ε σ β} {xs : List α} {s : σ}
    (start : motive s) (agree : ∀ x t, x ∈ xs → motive t → f x t = g x t)
    (next : ∀ x t y u, x ∈ xs → motive t → f x t = .ok y u → motive u) :
    xs.mapM f s = xs.mapM g s := by
  induction xs generalizing s with
  | nil => rfl
  | cons x xs ih =>
      have hfg := agree x s List.mem_cons_self start
      rw [List.mapM_cons, List.mapM_cons]
      calc (f x >>= fun y => xs.mapM f >>= fun ys => pure (y :: ys)) s
          = (f x >>= fun y => xs.mapM g >>= fun ys => pure (y :: ys)) s :=
            run_bind_congr fun y u hu => by
              have := ih (next x s y u List.mem_cons_self start hu)
                (fun z t hz => agree z t (List.mem_cons_of_mem x hz))
                fun z t w v hz => next z t w v (List.mem_cons_of_mem x hz)
              simp only [bind, EStateM.bind, this]
        _ = (g x >>= fun y => xs.mapM g >>= fun ys => pure (y :: ys)) s := by
            simp only [bind, EStateM.bind, hfg]

/-- What holds before a program is run for every item of a list and is kept by each
run holds in the end. `motive` speaks of the items done. -/
theorem run_forM_induction {motive : List α → σ → Prop} {f : α → EStateM ε σ PUnit}
    {xs : List α} {s s' : σ} {u : PUnit} (h : xs.forM f s = .ok u s') (start : motive [] s)
    (next : ∀ done x rest t u, xs = done ++ x :: rest → motive done t → f x t = .ok ⟨⟩ u →
      motive (done ++ [x]) u) : motive xs s' := by
  suffices ∀ (rest done : List α) (t : σ), xs = done ++ rest → motive done t →
      rest.forM f t = .ok u s' → motive xs s' by
    exact this xs [] s rfl start h
  intro rest
  induction rest with
  | nil =>
      intro done t hxs hmotive h
      rw [List.forM, run_pure_eq_ok] at h
      obtain ⟨-, rfl⟩ := h
      rw [hxs, List.append_nil]
      exact hmotive
  | cons x rest ih =>
      intro done t hxs hmotive h
      rw [List.forM, run_bind_eq_ok] at h
      obtain ⟨_, v, hx, h₁⟩ := h
      exact ih (done ++ [x]) v (by simp [hxs]) (next done x rest t v hxs hmotive hx) h₁

/-- Programs that agree wherever a run for every item gets to make runs that agree. -/
theorem run_forM_congr {motive : σ → Prop} {f g : α → EStateM ε σ PUnit} {xs : List α} {s : σ}
    (start : motive s) (agree : ∀ x t, x ∈ xs → motive t → f x t = g x t)
    (next : ∀ x t u, x ∈ xs → motive t → f x t = .ok ⟨⟩ u → motive u) :
    xs.forM f s = xs.forM g s := by
  induction xs generalizing s with
  | nil => rfl
  | cons x xs ih =>
      have hfg := agree x s List.mem_cons_self start
      rw [List.forM, List.forM]
      calc (f x >>= fun _ => xs.forM f) s
          = (f x >>= fun _ => xs.forM g) s :=
            run_bind_congr fun _ u hu => ih (next x s u List.mem_cons_self start hu)
              (fun z t hz => agree z t (List.mem_cons_of_mem x hz))
              fun z t v hz => next z t v (List.mem_cons_of_mem x hz)
        _ = (g x >>= fun _ => xs.forM g) s := by
            simp only [bind, EStateM.bind, hfg]

end State

/-! ### Programs without a state -/

section Except

variable {ε ε' α β : Type}

/-- A sequence succeeds if and only if both of its steps do. -/
theorem bind_eq_ok {x : Except ε α} {f : α → Except ε β} {b : β} :
    (x >>= f) = .ok b ↔ ∃ a, x = .ok a ∧ f a = .ok b := by
  cases x with
  | ok a => simp [bind, Except.bind]
  | error e => simp [bind, Except.bind]

/-- A sequence fails in its first step or after it. -/
theorem bind_eq_error {x : Except ε α} {f : α → Except ε β} {e : ε} :
    (x >>= f) = .error e ↔ x = .error e ∨ ∃ a, x = .ok a ∧ f a = .error e := by
  cases x with
  | ok a => simp [bind, Except.bind]
  | error e => simp [bind, Except.bind]

@[simp] theorem ok_bind {a : α} {f : α → Except ε β} : (Except.ok a >>= f) = f a := rfl

@[simp] theorem error_bind {e : ε} {f : α → Except ε β} :
    (Except.error e >>= f) = .error e := rfl

theorem throw_bind {e : ε} {f : α → Except ε β} :
    ((throw e : Except ε α) >>= f) = .error e := rfl

theorem throw_ne_ok {e : ε} {a : α} : (throw e : Except ε α) ≠ .ok a := by
  intro h
  cases h

theorem eq_ok_of_toOption {x : Except ε α} {a : α} (h : x.toOption = some a) : x = .ok a := by
  cases x with
  | ok b => exact congrArg Except.ok (Option.some.inj h)
  | error e => simp [Except.toOption] at h

theorem mapError_eq_ok {x : Except ε α} {f : ε → ε'} {a : α} :
    x.mapError f = .ok a ↔ x = .ok a := by
  cases x with
  | ok b => simp [Except.mapError]
  | error e => simp [Except.mapError]

theorem mapError_eq_error {x : Except ε α} {f : ε → ε'} {e' : ε'} :
    x.mapError f = .error e' ↔ ∃ e, x = .error e ∧ f e = e' := by
  cases x with
  | ok b => simp [Except.mapError]
  | error e => simp [Except.mapError]

/-- A program run on every item of a list succeeds if and only if it succeeds on
each of them. -/
theorem mapM_eq_ok {f : α → Except ε β} {xs : List α} {ys : List β} :
    xs.mapM f = .ok ys ↔ List.Forall₂ (fun x y => f x = .ok y) xs ys := by
  induction xs generalizing ys with
  | nil => simp [pure, Except.pure, eq_comm]
  | cons x xs ih =>
      simp only [List.mapM_cons, bind_eq_ok, ih, List.forall₂_cons_left_iff]
      constructor
      · rintro ⟨y, hy, zs, hzs, h⟩
        simp only [pure, Except.pure, Except.ok.injEq] at h
        exact ⟨y, zs, hy, hzs, h.symm⟩
      · rintro ⟨y, zs, hy, hzs, rfl⟩
        exact ⟨y, hy, zs, hzs, rfl⟩

theorem exists_left_of_forall₂ {rel : α → β → Prop} {xs : List α} {ys : List β}
    (h : List.Forall₂ rel xs ys) {y : β} (hy : y ∈ ys) : ∃ x ∈ xs, rel x y := by
  induction h with
  | nil => simp at hy
  | @cons x z xs ys hrel _ ih =>
      rcases List.mem_cons.mp hy with rfl | hy
      · exact ⟨x, List.mem_cons_self, hrel⟩
      · obtain ⟨w, hw, hrel⟩ := ih hy
        exact ⟨w, List.mem_cons_of_mem x hw, hrel⟩

/-- What stands at a position of one list is related to what stands there in the other. -/
theorem getElem?_of_forall₂ {rel : α → β → Prop} {xs : List α} {ys : List β}
    (h : List.Forall₂ rel xs ys) {i : Nat} {y : β} (hy : ys[i]? = some y) :
    ∃ x, xs[i]? = some x ∧ rel x y := by
  induction h generalizing i with
  | nil => simp at hy
  | @cons x z xs ys hrel _ ih =>
      cases i with
      | zero =>
          obtain rfl : z = y := Option.some.inj hy
          exact ⟨x, rfl, hrel⟩
      | succ i => exact ih hy

theorem exists_right_of_forall₂ {rel : α → β → Prop} {xs : List α} {ys : List β}
    (h : List.Forall₂ rel xs ys) {x : α} (hx : x ∈ xs) : ∃ y ∈ ys, rel x y :=
  exists_left_of_forall₂ h.flip hx

theorem forall₂_imp_of_mem {rel rel' : α → β → Prop} {xs : List α} {ys : List β}
    (h : List.Forall₂ rel xs ys) (himp : ∀ x ∈ xs, ∀ y ∈ ys, rel x y → rel' x y) :
    List.Forall₂ rel' xs ys := by
  induction h with
  | nil => exact .nil
  | @cons x y xs ys hrel _ ih =>
      have hrest := ih fun x' hx' y' hy' =>
        himp x' (List.mem_cons_of_mem x hx') y' (List.mem_cons_of_mem y hy')
      exact .cons (himp x List.mem_cons_self y List.mem_cons_self hrel) hrest

theorem forall₂_of_map_eq {f : α → γ} {g : β → γ} {xs : List α} {ys : List β}
    (h : xs.map f = ys.map g) : List.Forall₂ (fun x y => f x = g y) xs ys := by
  rw [← List.forall₂_eq_eq_eq, List.forall₂_map_left_iff, List.forall₂_map_right_iff] at h
  exact h

/-- What is made of items that are related is the same if it is so for each of them. -/
theorem map_eq_of_forall₂ {rel : α → β → Prop} {f : α → γ} {g : β → γ} {xs : List α} {ys : List β}
    (h : List.Forall₂ rel xs ys) (hfg : ∀ x y, rel x y → f x = g y) : xs.map f = ys.map g := by
  rw [← List.forall₂_eq_eq_eq, List.forall₂_map_left_iff, List.forall₂_map_right_iff]
  exact h.imp hfg

theorem exists_of_rel_some {rel : α → β → Prop} {a : Option α} {b : Option β} {x : α}
    (h : Option.Rel rel a b) (ha : a = some x) : ∃ y, b = some y ∧ rel x y := by
  subst ha
  cases h with
  | some hxy => exact ⟨_, rfl, hxy⟩

theorem exists_forall₂ {rel : α → β → Prop} {xs : List α} (h : ∀ x ∈ xs, ∃ y, rel x y) :
    ∃ ys, List.Forall₂ rel xs ys := by
  induction xs with
  | nil => exact ⟨[], .nil⟩
  | cons x xs ih =>
      obtain ⟨y, hy⟩ := h x List.mem_cons_self
      obtain ⟨ys, hys⟩ := ih fun other hother => h other (List.mem_cons_of_mem x hother)
      exact ⟨y :: ys, .cons hy hys⟩

/-- A program run on every item of a list fails where it first fails on one. -/
theorem mapM_eq_error {f : α → Except ε β} {xs : List α} {e : ε} (h : xs.mapM f = .error e) :
    ∃ done x rest ys, xs = done ++ x :: rest ∧ done.mapM f = .ok ys ∧ f x = .error e := by
  induction xs with
  | nil => simp [pure, Except.pure] at h
  | cons x xs ih =>
      simp only [List.mapM_cons, bind_eq_error] at h
      rcases h with h | ⟨y, hy, h | ⟨ys, -, h⟩⟩
      · exact ⟨[], x, xs, [], rfl, rfl, h⟩
      · obtain ⟨done, z, rest, ys, rfl, hdone, hz⟩ := ih h
        refine ⟨x :: done, z, rest, y :: ys, rfl, ?_, hz⟩
        rw [mapM_eq_ok] at hdone ⊢
        exact .cons hy hdone
      · simp [pure, Except.pure] at h

/-- A check of every item succeeds if and only if each of them does. -/
theorem forM_eq_ok {f : α → Except ε Unit} {xs : List α} :
    xs.forM f = .ok () ↔ ∀ x ∈ xs, f x = .ok () := by
  induction xs with
  | nil => simp [pure, Except.pure]
  | cons x xs ih =>
      rw [List.forM, bind_eq_ok, List.forall_mem_cons, ← ih]
      constructor
      · rintro ⟨_, hx, hxs⟩
        exact ⟨hx, hxs⟩
      · rintro ⟨hx, hxs⟩
        exact ⟨(), hx, hxs⟩

/-- A check of every item fails where one of them does. -/
theorem forM_eq_error {f : α → Except ε Unit} {xs : List α} {e : ε} (h : xs.forM f = .error e) :
    ∃ x ∈ xs, f x = .error e := by
  induction xs with
  | nil => simp [pure, Except.pure] at h
  | cons x xs ih =>
      rw [List.forM, bind_eq_error] at h
      rcases h with h | ⟨_, -, h⟩
      · exact ⟨x, List.mem_cons_self, h⟩
      · obtain ⟨y, hy, hfy⟩ := ih h
        exact ⟨y, List.mem_cons_of_mem x hy, hfy⟩

/-- What holds before a fold and is kept by each of its steps holds after it. `motive`
speaks of the items done. -/
theorem foldlM_induction {motive : List α → β → Prop} {f : β → α → Except ε β} {xs : List α}
    {b c : β} (h : xs.foldlM f b = .ok c) (start : motive [] b)
    (next : ∀ done x rest b c, xs = done ++ x :: rest → motive done b → f b x = .ok c →
      motive (done ++ [x]) c) : motive xs c := by
  suffices ∀ (rest done : List α) (b : β), xs = done ++ rest → motive done b →
      rest.foldlM f b = .ok c → motive xs c by
    exact this xs [] b rfl start h
  intro rest
  induction rest with
  | nil =>
      intro done b hxs hmotive h
      simp only [List.foldlM_nil, pure, Except.pure, Except.ok.injEq] at h
      rw [hxs, List.append_nil, ← h]
      exact hmotive
  | cons x rest ih =>
      intro done b hxs hmotive h
      rw [List.foldlM_cons, bind_eq_ok] at h
      obtain ⟨d, hx, h₁⟩ := h
      exact ih (done ++ [x]) d (by simp [hxs]) (next done x rest b d hxs hmotive hx) h₁

/-- A fold that fails does so in one of its steps, after those before it. -/
theorem foldlM_eq_error {f : β → α → Except ε β} {xs : List α} {b : β} {e : ε}
    (h : xs.foldlM f b = .error e) : ∃ done x rest c, xs = done ++ x :: rest ∧
      done.foldlM f b = .ok c ∧ f c x = .error e := by
  induction xs generalizing b with
  | nil => simp [pure, Except.pure] at h
  | cons x xs ih =>
      rw [List.foldlM_cons, bind_eq_error] at h
      rcases h with h | ⟨c, hc, h⟩
      · exact ⟨[], x, xs, b, rfl, rfl, h⟩
      · obtain ⟨done, y, rest, d, rfl, hdone, hy⟩ := ih h
        refine ⟨x :: done, y, rest, d, rfl, ?_, hy⟩
        rw [List.foldlM_cons, hc]
        exact hdone

/-- A loop that goes alike before and after a change of its state. -/
theorem foldlM_map_comm {f : β → α → Except ε β} {g : β → β}
    (h : ∀ b x, f (g b) x = (f b x).map g) (xs : List α) (b : β) :
    xs.foldlM f (g b) = (xs.foldlM f b).map g := by
  induction xs generalizing b with
  | nil => rfl
  | cons x xs ih =>
      rw [List.foldlM_cons, List.foldlM_cons, h]
      cases f b x with
      | error e => rfl
      | ok c => exact ih c

end Except

end SyntaxPack
