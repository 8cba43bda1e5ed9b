import Mathlib.Data.List.Induction

/-! Runs of labelled transition systems: a run is a chain of steps with the list of its labels.
An invariant is proved by showing that it holds initially and that one step keeps it; a property
of the labels is proved by an invariant that relates the labels seen so far to the state. -/

namespace Distllm

variable {σ ε : Type}

/-- The labels are listed in the order in which the steps are taken. -/
inductive Run (step : σ → ε → σ → Prop) : σ → List ε → σ → Prop where
  | refl (s : σ) : Run step s [] s
  | snoc {s t u : σ} {labels : List ε} {label : ε} :
      Run step s labels t → step t label u → Run step s (labels ++ [label]) u

namespace Run

variable {step : σ → ε → σ → Prop} {s t u : σ} {labels labels' : List ε} {label : ε}

theorem single (h : step s label t) : Run step s [label] t :=
  (Run.refl s).snoc h

theorem append (hst : Run step s labels t) (htu : Run step t labels' u) :
    Run step s (labels ++ labels') u := by
  induction htu with
  | refl => rwa [List.append_nil]
  | snoc _ hstep ih =>
      rw [← List.append_assoc]
      exact ih.snoc hstep

theorem cons (hst : step s label t) (htu : Run step t labels u) :
    Run step s (label :: labels) u :=
  (single hst).append htu

theorem mono {step' : σ → ε → σ → Prop} (hstep : ∀ {s label t}, step s label t → step' s label t)
    (hrun : Run step s labels t) : Run step' s labels t := by
  induction hrun with
  | refl => exact .refl _
  | snoc _ hlast ih => exact ih.snoc (hstep hlast)

/-- A system that computes its next state runs along any list of labels. -/
theorem foldl (f : σ → ε → σ) (s : σ) (labels : List ε) :
    Run (fun s label t => t = f s label) s labels (labels.foldl f s) := by
  induction labels using List.reverseRecOn with
  | nil => exact .refl s
  | append_singleton front last ih =>
      rw [List.foldl_append]
      exact ih.snoc rfl

/-- What holds of the first state and is kept by every step holds of the last state. -/
theorem invariant {P : σ → Prop} (hkeep : ∀ {s label t}, step s label t → P s → P t)
    (hrun : Run step s labels t) (hs : P s) : P t := by
  induction hrun with
  | refl => exact hs
  | snoc _ hstep ih => exact hkeep hstep ih

/-- An invariant that also speaks about the labels seen so far. -/
theorem invariant_labels {P : List ε → σ → Prop}
    (hkeep : ∀ {labels s label t}, step s label t → P labels s → P (labels ++ [label]) t)
    (hrun : Run step s labels t) (hs : P [] s) : P labels t := by
  induction hrun with
  | refl => exact hs
  | snoc _ hstep ih => exact hkeep hstep ih

end Run
end Distllm
