import Mathlib

/-! # Transition systems

A system takes steps labelled by the input it is given and the output it returns.
Runs are finite sequences of steps; an invariant is proved for one step and then
holds along every run, and a simulation of one step extends to whole runs. -/

namespace Nachos.Library

/-- A labelled transition system with inputs `ι` and outputs `ρ`. -/
structure System (σ ι ρ : Type*) where
  init : σ → Prop
  step : σ → ι → ρ → σ → Prop

namespace System

variable {σ τ ι ρ : Type*} (S : System σ ι ρ) (T : System τ ι ρ)

/-- A run and the inputs and outputs observed along it. -/
inductive Run : σ → List (ι × ρ) → σ → Prop where
  | nil (s) : Run s [] s
  | snoc {s t u trace i r} : Run s trace t → S.step t i r u → Run s (trace ++ [(i, r)]) u

/-- The states at the end of the runs that start in an initial state. -/
def Reachable (s : σ) : Prop :=
  ∃ s₀ trace, S.init s₀ ∧ S.Run s₀ trace s

variable {S T}

theorem Reachable.of_init {s : σ} (h : S.init s) : S.Reachable s :=
  ⟨s, [], h, .nil s⟩

theorem Reachable.step {s s' : σ} {i : ι} {r : ρ} (h : S.Reachable s)
    (hs : S.step s i r s') : S.Reachable s' := by
  obtain ⟨s₀, trace, h₀, hrun⟩ := h
  exact ⟨s₀, _, h₀, hrun.snoc hs⟩

/-- What every step preserves, every run preserves. -/
theorem Run.invariant {I : σ → Prop} {s s' : σ} {trace : List (ι × ρ)}
    (hrun : S.Run s trace s') (hs : I s)
    (hstep : ∀ t i r u, I t → S.step t i r u → I u) : I s' := by
  induction hrun with
  | nil => exact hs
  | snoc _ h ih => exact hstep _ _ _ _ ih h

/-- An invariant that holds initially and is preserved by every step holds in every
reachable state. -/
theorem Reachable.invariant {I : σ → Prop} {s : σ} (h : S.Reachable s)
    (hinit : ∀ s, S.init s → I s) (hstep : ∀ t i r u, I t → S.step t i r u → I u) : I s := by
  obtain ⟨s₀, trace, h₀, hrun⟩ := h
  exact hrun.invariant (hinit s₀ h₀) hstep

theorem Run.mono {S' : System σ ι ρ} {s s' : σ} {trace : List (ι × ρ)}
    (hrun : S.Run s trace s') (hstep : ∀ t i r u, S.step t i r u → S'.step t i r u) :
    S'.Run s trace s' := by
  induction hrun with
  | nil => exact .nil _
  | snoc _ h ih => exact ih.snoc (hstep _ _ _ _ h)

/-- A system with more initial states and more steps reaches more. -/
theorem Reachable.mono {S' : System σ ι ρ} {s : σ} (h : S.Reachable s)
    (hinit : ∀ s, S.init s → S'.init s) (hstep : ∀ t i r u, S.step t i r u → S'.step t i r u) :
    S'.Reachable s := by
  obtain ⟨s₀, trace, h₀, hrun⟩ := h
  exact ⟨s₀, trace, hinit s₀ h₀, hrun.mono hstep⟩

/-- If every step of `S` is matched by a step of `T` with the same input and output,
then so is every run. -/
theorem Run.simulation {R : σ → τ → Prop} {s s' : σ} {t : τ} {trace : List (ι × ρ)}
    (hrun : S.Run s trace s') (hs : R s t)
    (hstep : ∀ u v i r u', R u v → S.step u i r u' → ∃ v', T.step v i r v' ∧ R u' v') :
    ∃ t', T.Run t trace t' ∧ R s' t' := by
  induction hrun with
  | nil => exact ⟨t, .nil t, hs⟩
  | snoc _ h ih =>
      obtain ⟨v, hv, hR⟩ := ih
      obtain ⟨v', hv', hR'⟩ := hstep _ _ _ _ _ hR h
      exact ⟨v', hv.snoc hv', hR'⟩

end System

/-- What every step preserves, any number of steps preserves. -/
theorem steps_invariant {σ : Type*} {step : σ → σ → Prop} {I : σ → Prop} {s s' : σ}
    (hstep : ∀ t u, I t → step t u → I u) (h : Relation.ReflTransGen step s s') (hs : I s) :
    I s' := by
  induction h with
  | refl => exact hs
  | tail _ ht ih => exact hstep _ _ ih ht

end Nachos.Library
