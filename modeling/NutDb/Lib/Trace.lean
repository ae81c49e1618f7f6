/-
  Traces of a labelled transition system.

  A trace records the state before each step, and the label of the step, newest
  first.
-/
import Mathlib.Data.List.Basic

namespace Lib

variable {σ ℓ : Type}

/-- The traces of the steps `Step`. -/
inductive Trace (Step : σ → ℓ → σ → Prop) : σ → List (σ × ℓ) → σ → Prop
  | refl (s : σ) : Trace Step s [] s
  | step {s s₁ s₂ : σ} {l : ℓ} {steps : List (σ × ℓ)} : Trace Step s steps s₁ → Step s₁ l s₂ →
      Trace Step s ((s₁, l) :: steps) s₂

namespace Trace
variable {Step : σ → ℓ → σ → Prop} {s s₁ s₂ : σ}

theorem trans {steps more : List (σ × ℓ)} (h : Trace Step s steps s₁) (h' : Trace Step s₁ more s₂) :
    Trace Step s (more ++ steps) s₂ := by
  induction h' with
  | refl => exact h
  | step _ hs ih => exact ih.step hs

/-- **Invariants of traces**: what the steps keep holds at the end of a trace. -/
theorem inv {I : σ → Prop} (hstep : ∀ {s l s'}, I s → Step s l s' → I s') {steps : List (σ × ℓ)}
    (h : Trace Step s steps s₁) (hs : I s) : I s₁ := by
  induction h with
  | refl => exact hs
  | step _ h' ih => exact hstep ih h'

theorem step_of_mem {steps : List (σ × ℓ)} (h : Trace Step s steps s₁) {p : σ × ℓ} (hp : p ∈ steps) :
    ∃ s', Step p.1 p.2 s' := by
  induction h with
  | refl => cases hp
  | @step s₁ s₂ l steps _ hs ih =>
    rcases List.mem_cons.1 hp with rfl | hp
    · exact ⟨s₂, hs⟩
    · exact ih hp

end Trace

end Lib
