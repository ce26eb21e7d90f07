import Mathlib.Logic.Basic

/-!
# Runs of labelled steps

A step relation with labels, its finite runs, and what a relation between the states of two
systems carries from the runs of one to the runs of the other.
-/

namespace Labelled

variable {σ τ α : Type} {step : σ → α → σ → Prop} {spec : τ → α → τ → Prop} {s s' : σ} {t : τ} {labels : List α}

inductive Run (step : σ → α → σ → Prop) : σ → List α → σ → Prop
  | nil (s : σ) : Run step s [] s
  | cons {s next s' : σ} {label : α} {labels : List α} (first : step s label next) (rest : Run step next labels s') :
    Run step s (label :: labels) s'

/-- When every step is one of `spec` up to `R`, so is every run. -/
lemma Run.simulate {R : σ → τ → Prop}
    (h : ∀ {s t label s'}, R s t → step s label s' → ∃ t', spec t label t' ∧ R s' t')
    (hrel : R s t) (hrun : Run step s labels s') : ∃ t', Run spec t labels t' ∧ R s' t' := by
  induction hrun generalizing t with
  | nil => exact ⟨t, .nil t, hrel⟩
  | cons first _ ih =>
    obtain ⟨next, hfirst, hnext⟩ := h hrel first
    obtain ⟨t', hrest, hend⟩ := ih hnext
    exact ⟨t', .cons hfirst hrest, hend⟩

end Labelled
