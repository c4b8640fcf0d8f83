import Mathlib.Tactic.Common
import Mathlib.Data.List.Infix

/-!
# Runs of a labelled step relation

A run performs a list of actions one after the other. Histories grow at their end, so
an invariant may speak of everything that has happened so far.

## Main definitions

* `Run` — the reflexive, transitive closure of a step relation, with its action list.
* `guarded` — a step relation restricted to the steps that meet a condition.
-/

namespace Library

variable {σ α : Type*}

/-- `Run step s as t`: the actions `as`, in order, lead from `s` to `t`. -/
inductive Run (step : σ → α → σ → Prop) : σ → List α → σ → Prop where
  | refl (s : σ) : Run step s [] s
  | snoc {s t u : σ} {as : List α} {a : α} :
      Run step s as t → step t a u → Run step s (as ++ [a]) u

/-- The steps of `step` that meet the condition `ok` in the state they start from. -/
def guarded (ok : σ → α → Prop) (step : σ → α → σ → Prop) (s : σ) (a : α) (t : σ) : Prop :=
  ok s a ∧ step s a t

namespace Run

variable {step : σ → α → σ → Prop} {s t u : σ} {as bs : List α} {a : α}

theorem single (h : step s a t) : Run step s [a] t := .snoc (.refl s) h

theorem trans (h : Run step s as t) (g : Run step t bs u) : Run step s (as ++ bs) u := by
  induction g with
  | refl => simpa using h
  | snoc _ hs ih => rw [← List.append_assoc]; exact .snoc ih hs

theorem cons (h : step s a t) (g : Run step t as u) : Run step s (a :: as) u :=
  (single h).trans g

/-- The induction rule of safety properties. -/
theorem invariant (Inv : σ → Prop) (hstep : ∀ s a t, Inv s → step s a t → Inv t)
    (h : Run step s as t) (hs : Inv s) : Inv t := by
  induction h with
  | refl => exact hs
  | snoc _ hstep' ih => exact hstep _ _ _ ih hstep'

/-- An invariant may mention the actions performed so far. -/
theorem history (Inv : List α → σ → Prop) (h0 : Inv [] s)
    (hstep : ∀ as s a t, Inv as s → step s a t → Inv (as ++ [a]) t)
    (h : Run step s as t) : Inv as t := by
  induction h with
  | refl => exact h0
  | snoc _ hs ih => exact hstep _ _ _ _ ih hs

theorem mono {step' : σ → α → σ → Prop} (hm : ∀ s a t, step s a t → step' s a t)
    (h : Run step s as t) : Run step' s as t := by
  induction h with
  | refl => exact .refl _
  | snoc _ hs ih => exact .snoc ih (hm _ _ _ hs)

end Run

end Library
