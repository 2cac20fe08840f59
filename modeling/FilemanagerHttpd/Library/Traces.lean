import Mathlib.Data.List.Basic

/-!
# Transition systems with labels

A step shows some labels, often none. A trace of steps shows them one after the other.
-/

namespace FilemanagerHttpd.Library

variable {σ ℓ : Type}

/-- Steps one after the other, and what they show. -/
inductive Traced (step : σ → List ℓ → σ → Prop) : σ → List ℓ → σ → Prop
  | refl (s : σ) : Traced step s [] s
  | snoc {s t u : σ} {shown new : List ℓ} :
      Traced step s shown t → step t new u → Traced step s (shown ++ new) u

namespace Traced

variable {step : σ → List ℓ → σ → Prop} {s t u : σ} {shown new : List ℓ}

theorem trans (h : Traced step s shown t) (h' : Traced step t new u) :
    Traced step s (shown ++ new) u := by
  induction h' with
  | refl =>
    rw [List.append_nil]
    exact h
  | snoc _ hstep ih =>
    rw [← List.append_assoc]
    exact ih.snoc hstep

/-- A step that shows nothing. -/
theorem silent (h : Traced step s shown t) (hstep : step t [] u) : Traced step s shown u := by
  have hsnoc := h.snoc hstep
  rw [List.append_nil] at hsnoc
  exact hsnoc

/-- What each step keeps of the state and of what has been shown. -/
theorem keeps {I : List ℓ → σ → Prop}
    (hkeep : ∀ shown s new t, I shown s → step s new t → I (shown ++ new) t) (hI : I [] s)
    (h : Traced step s shown t) : I shown t := by
  induction h with
  | refl => exact hI
  | snoc _ hstep ih => exact hkeep _ _ _ _ ih hstep

end Traced

end FilemanagerHttpd.Library
