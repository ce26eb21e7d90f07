import Mathlib.Logic.Relation
import Mathlib.Order.WellFoundedSet

/-!
# Reachability

What a set of roots reaches along a relation, and the sets that contain it: those that contain the
roots and are closed. A walk that keeps a list of what is still to be followed ends with such a set.
-/

namespace GraphLib

variable {α : Type*} {edge edge' : α → α → Prop} {roots roots' s t : Set α} {a b : α}

def Reach (edge : α → α → Prop) (roots : Set α) (a : α) : Prop := ∃ root ∈ roots, Relation.ReflTransGen edge root a

def Closed (edge : α → α → Prop) (s : Set α) : Prop := ∀ a ∈ s, ∀ b, edge a b → b ∈ s

lemma Reach.root (h : a ∈ roots) : Reach edge roots a := ⟨a, h, .refl⟩

lemma Reach.step (h : Reach edge roots a) (hedge : edge a b) : Reach edge roots b := by
  obtain ⟨root, hroot, hpath⟩ := h
  exact ⟨root, hroot, hpath.tail hedge⟩

lemma Reach.mono (h : Reach edge roots a) (hroots : roots ⊆ roots') : Reach edge roots' a := by
  obtain ⟨root, hroot, hpath⟩ := h
  exact ⟨root, hroots hroot, hpath⟩

lemma Closed.reach (h : Closed edge s) (hroots : roots ⊆ s) (ha : Reach edge roots a) : a ∈ s := by
  obtain ⟨root, hroot, hpath⟩ := ha
  induction hpath with
  | refl => exact hroots hroot
  | tail _ hedge ih => exact h _ ih _ hedge

lemma Closed.path (h : Closed edge s) (hedge : ∀ a ∈ s, ∀ b, edge a b → edge' a b) (ha : a ∈ s)
    (hpath : Relation.ReflTransGen edge a b) : b ∈ s ∧ Relation.ReflTransGen edge' a b := by
  induction hpath with
  | refl => exact ⟨ha, .refl⟩
  | tail _ hlast ih => exact ⟨h _ ih.1 _ hlast, ih.2.tail (hedge _ ih.1 _ hlast)⟩

lemma Closed.cycle (h : Closed edge s) (hedge : ∀ a ∈ s, ∀ b, edge a b → edge' a b) (ha : a ∈ s)
    (hcycle : Relation.TransGen edge a b) : Relation.TransGen edge' a b := by
  obtain ⟨next, hfirst, hpath⟩ := Relation.TransGen.head'_iff.mp hcycle
  exact .head' (hedge a ha next hfirst) (h.path hedge (h a ha next hfirst) hpath).2

lemma no_cycle_of_edges (h : ∀ b, edge b a → ¬ Relation.TransGen edge b b) :
    ¬ Relation.TransGen edge a a := by
  intro hcycle
  obtain ⟨last, hpath, hlast⟩ := Relation.TransGen.tail'_iff.mp hcycle
  exact h last hlast (.head' hlast hpath)

lemma subset_of_peeled (hs : s.Finite) (hacyclic : ∀ a, ¬ Relation.TransGen edge a a)
    (hpeel : ∀ a ∈ s, (∀ b ∈ s, edge b a → b ∈ t) → a ∈ t) : s ⊆ t := by
  have horder : IsStrictOrder α (Relation.TransGen edge) :=
    { irrefl := hacyclic, trans := fun _ _ _ => Relation.TransGen.trans }
  intro a ha
  refine (hs.wellFoundedOn (r := Relation.TransGen edge)).induction ha fun b hb ih =>
    hpeel b hb fun c hc hedge => ?_
  exact ih c hc (.single hedge)

/-- Everything seen has its successors seen, apart from what is still to be followed. -/
def Followed (edge : α → α → Prop) (seen pending : Set α) : Prop :=
  ∀ a ∈ seen, a ∈ pending ∨ ∀ b, edge a b → b ∈ seen

lemma Followed.next {seen seen' pending pending' : Set α} (h : Followed edge seen pending)
    (hseen : seen ⊆ seen') (ha : ∀ b, edge a b → b ∈ seen')
    (hpending : ∀ b ∈ pending, b = a ∨ b ∈ pending') (hnew : ∀ b ∈ seen', b ∈ seen ∨ b ∈ pending') :
    Followed edge seen' pending' := by
  intro b hb
  rcases hnew b hb with hold | hfr
  · rcases h b hold with hwait | hdone
    · rcases hpending b hwait with rfl | hwait
      · exact .inr ha
      · exact .inl hwait
    · exact .inr fun c hedge => hseen (hdone c hedge)
  · exact .inl hfr

end GraphLib
