import Girt.Lib.Bytes

/-!
# Computations that draw on a budget

A computation passes a budget on and stops when it is refused more of it. What it computes does not
depend on the budget, only whether it gets to the end.
-/

namespace MeteredLib
open ByteLib

/-- What is known of a budget: how much every part of it still allows, whether it can be drawn on at
all, and which errors refuse it. -/
structure Meter (σ ε : Type) where
  level : σ → Nat
  ready : σ → Prop
  refusal : ε → Prop

/-- A computation returns one value only, fails only where it is refused, and is not refused by a
budget that is large enough, under the condition `fits`. -/
structure Computes {σ ε α : Type} (meter : Meter σ ε) (fits : Prop) (f : StateT σ (Except ε) α) (a : α) : Prop where
  value : ∀ s b s', f s = .ok (b, s') → b = a
  failure : ∀ s e, f s = .error e → meter.refusal e
  enough : fits → ∃ cost, ∀ s, meter.ready s → cost ≤ meter.level s →
    ∃ s', f s = .ok (a, s') ∧ meter.ready s' ∧ meter.level s ≤ meter.level s' + cost

variable {σ ε α β : Type} {meter : Meter σ ε} {fits : Prop} {f : StateT σ (Except ε) α}
  {g : α → StateT σ (Except ε) β}
  {a : α} {b : β}

lemma computes_pure (a : α) : Computes meter fits (pure a : StateT σ (Except ε) α) a := by
  refine ⟨?_, ?_, fun _ => ⟨0, fun s hrdy _ => ⟨s, rfl, hrdy, le_rfl⟩⟩⟩
  · rintro s b s' ⟨⟩
    rfl
  · rintro s e ⟨⟩

lemma Computes.bind (hf : Computes meter fits f a) (hg : Computes meter fits (g a) b) :
    Computes meter fits (f >>= g) b := by
  have hbind : ∀ s, (f >>= g) s = f s >>= fun r => g r.1 r.2 := fun _ => rfl
  refine ⟨fun s c s' h => ?_, fun s e h => ?_, fun hfits => ?_⟩
  · rw [hbind, bind_ok] at h
    obtain ⟨⟨a', s₁⟩, hfirst, hsec⟩ := h
    obtain rfl := hf.value s a' s₁ hfirst
    exact hg.value s₁ c s' hsec
  · rw [hbind, bind_error] at h
    obtain herr | ⟨⟨a', s₁⟩, hfirst, herr⟩ := h
    · exact hf.failure s e herr
    · obtain rfl := hf.value s a' s₁ hfirst
      exact hg.failure s₁ e herr
  · obtain ⟨cost, hcost⟩ := hf.enough hfits
    obtain ⟨cost', hcost'⟩ := hg.enough hfits
    refine ⟨cost + cost', fun s hrdy hlev => ?_⟩
    obtain ⟨s₁, hfirst, hrdy₁, hlev₁⟩ := hcost s hrdy (by omega)
    obtain ⟨s₂, hsec, hrdy₂, hlev₂⟩ := hcost' s₁ hrdy₁ (by omega)
    refine ⟨s₂, ?_, hrdy₂, by omega⟩
    rw [hbind, hfirst]
    exact hsec

lemma Computes.of_imp {fits' : Prop} (h : Computes meter fits f a) (himp : fits' → fits) :
    Computes meter fits' f a :=
  ⟨h.value, h.failure, fun hfits => h.enough (himp hfits)⟩

end MeteredLib
