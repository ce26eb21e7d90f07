import Mathlib.Tactic.Common
import Mathlib.Algebra.Order.Ring.Nat
import Mathlib.Data.List.Basic

/-!
# Edit graphs

Paths from the origin of the edit graph of two lists. A path deletes an element of the first list,
inserts one of the second, or keeps an element that both have next. The graph has no border: past the
end of a list elements can be deleted or inserted, but nothing is kept.
-/

namespace EditGraph

variable {α : Type*} {a b : List α} {d x y : Nat}

/-- Both lists have the same element next. -/
def Match (a b : List α) (x y : Nat) : Prop := ∃ v, a[x]? = some v ∧ b[y]? = some v

/-- The points that can be reached with a number of edits. -/
inductive Path (a b : List α) : Nat → Nat → Nat → Prop
  | origin : Path a b 0 0 0
  | keep {d x y : Nat} : Path a b d x y → Match a b x y → Path a b d (x + 1) (y + 1)
  | delete {d x y : Nat} : Path a b d x y → Path a b (d + 1) (x + 1) y
  | insert {d x y : Nat} : Path a b d x y → Path a b (d + 1) x (y + 1)

lemma Match.lt (h : Match a b x y) : x < a.length ∧ y < b.length := by
  obtain ⟨v, ha, hb⟩ := h
  exact ⟨(List.getElem?_eq_some_iff.mp ha).1, (List.getElem?_eq_some_iff.mp hb).1⟩

def Diagonal (a b : List α) (x y length : Nat) : Prop := ∀ j < length, Match a b (x + j) (y + j)

lemma diagonal_zero (a b : List α) (x y : Nat) : Diagonal a b x y 0 := fun j hj => absurd hj (Nat.not_lt_zero j)

lemma Diagonal.append {length length' : Nat} (h : Diagonal a b x y length)
    (h' : Diagonal a b (x + length) (y + length) length') :
    Diagonal a b x y (length + length') := by
  intro j hj
  by_cases hlt : j < length
  · exact h j hlt
  · have hnext := h' (j - length) (by omega)
    rwa [show x + length + (j - length) = x + j by omega, show y + length + (j - length) = y + j by omega] at hnext

lemma Path.diagonal (h : Path a b d x y) {length : Nat} (hkeep : Diagonal a b x y length) :
    Path a b d (x + length) (y + length) := by
  induction length with
  | zero => exact h
  | succ length ih => exact (ih fun j hj => hkeep j (by omega)).keep (hkeep length (by omega))

lemma Path.balance (h : Path a b d x y) :
    ∃ kept deleted inserted, x = kept + deleted ∧ y = kept + inserted ∧ d = deleted + inserted := by
  induction h with
  | origin => exact ⟨0, 0, 0, rfl, rfl, rfl⟩
  | keep _ _ ih =>
    obtain ⟨kept, deleted, inserted, hx, hy, hd⟩ := ih
    exact ⟨kept + 1, deleted, inserted, by omega, by omega, hd⟩
  | delete _ ih =>
    obtain ⟨kept, deleted, inserted, hx, hy, hd⟩ := ih
    exact ⟨kept, deleted + 1, inserted, by omega, hy, by omega⟩
  | insert _ ih =>
    obtain ⟨kept, deleted, inserted, hx, hy, hd⟩ := ih
    exact ⟨kept, deleted, inserted + 1, hx, by omega, by omega⟩

lemma Path.zero (h : Path a b d x y) (hd : d = 0) : x = y ∧ Diagonal a b 0 0 x := by
  induction h with
  | origin => exact ⟨rfl, fun j hj => absurd hj (by omega)⟩
  | keep _ hmat ih =>
    obtain ⟨rfl, hkeep⟩ := ih hd
    refine ⟨rfl, fun j hj => ?_⟩
    rcases Nat.lt_succ_iff_lt_or_eq.mp hj with hj | rfl
    · exact hkeep j hj
    · simpa using hmat
  | delete | insert => cases hd

lemma Path.last (h : Path a b (d + 1) x y) : ∃ x₀ y₀ x₁ y₁ length, Path a b d x₀ y₀ ∧
    ((x₁ = x₀ + 1 ∧ y₁ = y₀) ∨ (x₁ = x₀ ∧ y₁ = y₀ + 1)) ∧ x = x₁ + length ∧ y = y₁ + length ∧
      Diagonal a b x₁ y₁ length := by
  generalize hd : d + 1 = d' at h
  induction h with
  | origin => cases hd
  | keep _ hmat ih =>
    obtain ⟨x₀, y₀, x₁, y₁, length, hpath, hedit, rfl, rfl, hkeep⟩ := ih hd
    refine ⟨x₀, y₀, x₁, y₁, length + 1, hpath, hedit, rfl, rfl, fun j hj => ?_⟩
    rcases Nat.lt_succ_iff_lt_or_eq.mp hj with hj | rfl
    · exact hkeep j hj
    · exact hmat
  | @delete d' x y hpath =>
    cases hd
    exact ⟨x, y, x + 1, y, 0, hpath, .inl ⟨rfl, rfl⟩, rfl, rfl, fun j hj => absurd hj (by omega)⟩
  | @insert d' x y hpath =>
    cases hd
    exact ⟨x, y, x, y + 1, 0, hpath, .inr ⟨rfl, rfl⟩, rfl, rfl, fun j hj => absurd hj (by omega)⟩

lemma Path.clip (h : Path a b d x y) : (x - a.length) + (y - b.length) ≤ d ∧
    Path a b (d - ((x - a.length) + (y - b.length))) (min x a.length) (min y b.length) := by
  induction h with
  | origin => exact ⟨by omega, by simpa using Path.origin⟩
  | @keep d x y hpath hmat ih =>
    obtain ⟨hx, hy⟩ := hmat.lt
    have hins : x + 1 - a.length + (y + 1 - b.length) = 0 := by omega
    rw [hins, min_eq_left (by omega), min_eq_left (by omega)]
    exact ⟨by omega, hpath.keep hmat⟩
  | @delete d x y _ ih =>
    obtain ⟨hle, hpath⟩ := ih
    by_cases hx : x < a.length
    · have hsame : d + 1 - (x + 1 - a.length + (y - b.length)) =
          d - (x - a.length + (y - b.length)) + 1 := by omega
      rw [hsame, min_eq_left (by omega : x + 1 ≤ a.length)]
      rw [min_eq_left (by omega : x ≤ a.length)] at hpath
      exact ⟨by omega, hpath.delete⟩
    · have hsame : d + 1 - (x + 1 - a.length + (y - b.length)) =
          d - (x - a.length + (y - b.length)) := by omega
      rw [hsame, min_eq_right (by omega : a.length ≤ x + 1)]
      rw [min_eq_right (by omega : a.length ≤ x)] at hpath
      exact ⟨by omega, hpath⟩
  | @insert d x y _ ih =>
    obtain ⟨hle, hpath⟩ := ih
    by_cases hy : y < b.length
    · have hsame : d + 1 - (x - a.length + (y + 1 - b.length)) =
          d - (x - a.length + (y - b.length)) + 1 := by omega
      rw [hsame, min_eq_left (by omega : y + 1 ≤ b.length)]
      rw [min_eq_left (by omega : y ≤ b.length)] at hpath
      exact ⟨by omega, hpath.insert⟩
    · have hsame : d + 1 - (x - a.length + (y + 1 - b.length)) =
          d - (x - a.length + (y - b.length)) := by omega
      rw [hsame, min_eq_right (by omega : b.length ≤ y + 1)]
      rw [min_eq_right (by omega : b.length ≤ y)] at hpath
      exact ⟨by omega, hpath⟩

section Common

lemma Path.inserts (h : Path a b d x y) (n : Nat) : Path a b (d + n) x (y + n) := by
  induction n with
  | zero => exact h
  | succ n ih => exact ih.insert

lemma drop_succ_of_drop {l rest : List α} {i : Nat} {v : α} (h : l.drop i = v :: rest) :
    l[i]? = some v ∧ l.drop (i + 1) = rest := by
  constructor
  · rw [← List.head?_drop, h]
    rfl
  · rw [← List.tail_drop, h]
    rfl

lemma Path.of_sublist {c l m : List α} (hl : c.Sublist l) (hm : c.Sublist m) (hx : a.drop x = l)
    (hy : b.drop y = m) (h : Path a b d x y) :
    Path a b (d + (l.length - c.length) + (m.length - c.length)) (x + l.length) (y + m.length) := by
  induction hl generalizing m d x y with
  | slnil => simpa using h.inserts m.length
  | @cons c l v hsub ih =>
    obtain ⟨-, hrest⟩ := drop_succ_of_drop hx
    have hpath := ih hm hrest hy h.delete
    have hle := hsub.length_le
    convert hpath using 1
    · rw [List.length_cons]; omega
    · rw [List.length_cons]; omega
  | @cons_cons c l v hsub ih =>
    obtain ⟨hnext, hrest⟩ := drop_succ_of_drop hx
    -- the element is found in the second list after some insertions
    induction m generalizing d y with
    | nil => cases hm
    | cons w m ihm =>
      obtain ⟨hnext', hrest'⟩ := drop_succ_of_drop hy
      by_cases hsame : v = w ∧ c.Sublist m
      · obtain ⟨rfl, hm'⟩ := hsame
        have hpath := ih hm' hrest hrest' (h.keep ⟨v, hnext, hnext'⟩)
        convert hpath using 1
        all_goals simp only [List.length_cons]; omega
      · have hm' : (v :: c).Sublist m := by
          cases hm with
          | cons _ hskip => exact hskip
          | cons_cons _ hkeep => exact absurd ⟨rfl, hkeep⟩ hsame
        have hpath := ihm hm' hrest' h.insert
        have hsh := hm'.length_le
        convert hpath using 1
        all_goals simp only [List.length_cons] at *; omega

lemma Path.of_common {c : List α} (ha : c.Sublist a) (hb : c.Sublist b) :
    Path a b ((a.length - c.length) + (b.length - c.length)) a.length b.length := by
  have hpath := Path.of_sublist ha hb List.drop_zero List.drop_zero Path.origin
  simpa using hpath

end Common

section Frontier

/-- The furthest points that are reached with `d` edits: slot `i` holds the one on the diagonal
`x - y = 2 * i - d`. -/
structure Frontier (a b : List α) (d : Nat) (row : List Nat) : Prop where
  length : row.length = d + 1
  path : ∀ slot x, row[slot]? = some x → ∃ y, x + d = y + 2 * slot ∧ Path a b d x y
  furthest : ∀ slot x, row[slot]? = some x → ∀ x' y', Path a b d x' y' → x' + d = y' + 2 * slot → x' ≤ x

lemma Frontier.get {row : List Nat} {slot : Nat} (h : Frontier a b d row) (hslot : slot ≤ d) :
    ∃ x, row[slot]? = some x :=
  ⟨_, List.getElem?_eq_getElem (by rw [h.length]; omega)⟩

lemma Path.slot (h : Path a b d x y) : ∃ slot ≤ d, x + d = y + 2 * slot := by
  obtain ⟨kept, deleted, inserted, hx, hy, hd⟩ := h.balance
  exact ⟨deleted, by omega, by omega⟩

lemma furthest_of_start {slot x₁ y₁ length : Nat} (hslot : x₁ + (d + 1) = y₁ + 2 * slot)
    (hdelete : ∀ x₀ y₀, Path a b d x₀ y₀ → x₀ + 1 + (d + 1) = y₀ + 2 * slot → x₀ + 1 ≤ x₁)
    (hinsert : ∀ x₀ y₀, Path a b d x₀ y₀ → x₀ + (d + 1) = y₀ + 1 + 2 * slot → x₀ ≤ x₁)
    (hstop : ¬ Match a b (x₁ + length) (y₁ + length)) {x' y' : Nat} (hpath : Path a b (d + 1) x' y')
    (hslot' : x' + (d + 1) = y' + 2 * slot) : x' ≤ x₁ + length := by
  obtain ⟨x₀, y₀, start, start', run, hbf, hedit, rfl, rfl, hkeep⟩ := hpath.last
  have hst : start ≤ x₁ := by
    rcases hedit with ⟨rfl, rfl⟩ | ⟨rfl, rfl⟩
    · exact hdelete x₀ _ hbf (by omega)
    · exact hinsert _ y₀ hbf (by omega)
  by_contra hlt
  -- the run passes the point after which nothing is kept
  have hmat := hkeep (x₁ + length - start) (by omega)
  have hx : start + (x₁ + length - start) = x₁ + length := by omega
  have hy : start' + (x₁ + length - start) = y₁ + length := by omega
  rw [hx, hy] at hmat
  exact hstop hmat

end Frontier

end EditGraph
