import Mathlib.Logic.Function.Basic
import Mathlib.Logic.Relation
import Mathlib.Tactic.Common

/-!
# Chains of links

A partial successor function, the finite chains it gives rise to, and its cycles.
-/

namespace Links

variable {α : Type} {next : α → Option α} {a b c : α} {l : List α}

/-- The nodes from `a` to the first one without a successor. -/
inductive Chain (next : α → Option α) : α → List α → Prop
  | stop {a : α} (h : next a = none) : Chain next a [a]
  | step {a b : α} {l : List α} (h : next a = some b) (hl : Chain next b l) : Chain next a (a :: l)

/-- `b` is `a` or lies behind it. -/
def Reaches (next : α → Option α) : α → α → Prop := Relation.ReflTransGen (fun a b => next a = some b)

def OnCycle (next : α → Option α) (a : α) : Prop := Relation.TransGen (fun a b => next a = some b) a a

def Acyclic (next : α → Option α) : Prop := ∀ a, ¬ OnCycle next a

lemma Chain.head_mem (h : Chain next a l) : a ∈ l := by
  cases h with
  | stop | step => exact List.mem_cons_self

lemma Chain.unique {l' : List α} (h : Chain next a l) (h' : Chain next a l') : l = l' := by
  induction h generalizing l' with
  | stop hnone => cases h' <;> simp_all
  | step hnext _ ih =>
    cases h' with
    | stop hnone => simp [hnone] at hnext
    | step hnext' hl' => grind

lemma Chain.mem_iff (h : Chain next a l) : b ∈ l ↔ Reaches next a b := by
  constructor
  · intro hb
    induction h with
    | stop hnone =>
      rw [List.mem_singleton.mp hb]
      exact .refl
    | step hnext _ ih =>
      rcases List.mem_cons.mp hb with rfl | hb
      · exact .refl
      · exact .head hnext (ih hb)
  · intro hb
    induction hb using Relation.ReflTransGen.head_induction_on generalizing l with
    | refl => exact h.head_mem
    | head hnext _ ih =>
      cases h with
      | stop hnone =>
        rw [hnone] at hnext
        cases hnext
      | step hnext' hl =>
        rw [hnext'] at hnext
        cases hnext
        exact List.mem_cons_of_mem _ (ih hl)

lemma reaches_congr {next' : α → Option α} (h : ∀ x, x ≠ a → next x = next' x)
    (hb : Reaches next b a) : Reaches next' b a := by
  induction hb using Relation.ReflTransGen.head_induction_on with
  | refl => exact .refl
  | head hnext _ ih =>
    rename_i x y _
    by_cases hx : x = a
    · rw [hx]
      exact .refl
    · refine .head ?_ ih
      rw [← h x hx]
      exact hnext

lemma onCycle_iff {next' : α → Option α} (hother : ∀ x, x ≠ a → next' x = next x)
    (ha : next' a = some b) : OnCycle next' a ↔ Reaches next b a := by
  constructor
  · intro h
    obtain ⟨c, hc, hback⟩ := Relation.TransGen.head'_iff.mp h
    rw [ha] at hc
    cases hc
    exact reaches_congr hother hback
  · intro h
    exact Relation.TransGen.head' ha (reaches_congr (fun x hx => (hother x hx).symm) h)

lemma acyclic_of_stop (h : ∀ x y, next x = some y → next y = none) : Acyclic next := by
  intro x hx
  obtain ⟨y, hy, hback⟩ := Relation.TransGen.head'_iff.mp hx
  have hnone : next y = none := h x y hy
  rcases hback.cases_head with rfl | ⟨z, hz, -⟩
  · rw [hnone] at hy
    cases hy
  · rw [hnone] at hz
    cases hz

end Links
