import Mathlib.Computability.Language
import Mathlib.Tactic.Common

/-!
# Glob patterns

A glob pattern is a sequence of pieces, each with a language. A row has one cell for each position
of a text, and it reads a language when a cell is set exactly where the text up to it is a word of
the language. Each piece takes a row to the next one in a single pass over the text.
-/

namespace GlobLib

open List

variable {α : Type}

inductive Piece (α : Type) where
  /-- One symbol. -/
  | one (accepts : α → Bool)
  /-- Any number of symbols. -/
  | many (accepts : α → Bool)
  /-- Nothing, or anything that ends with such a symbol. -/
  | upTo (stop : α → Bool)

def Piece.language : Piece α → Language α
  | .one accepts => {w | ∃ a, w = [a] ∧ accepts a = true}
  | .many accepts => {w | ∀ a ∈ w, accepts a = true}
  | .upTo stop => {w | w = [] ∨ ∃ v a, w = v ++ [a] ∧ stop a = true}

def language (pieces : List (Piece α)) : Language α := (pieces.map Piece.language).prod

section Rows

/-- The cells after the first one, for pieces of any number of symbols. -/
def manyCells (accepts : α → Bool) : Bool → List α → List Bool → List Bool
  | left, a :: text, cell :: row => (cell || (left && accepts a)) :: manyCells accepts (cell || (left && accepts a)) text row
  | _, _, _ => []

/-- The cells after the first one, for pieces that end with a symbol; the flag says whether any cell
so far was set. -/
def upToCells (stop : α → Bool) : Bool → List α → List Bool → List Bool
  | reachable, a :: text, cell :: row => (cell || (stop a && reachable)) :: upToCells stop (reachable || cell) text row
  | _, _, _ => []

def oneRow (accepts : α → Bool) (text : List α) (row : List Bool) : List Bool :=
  false :: List.zipWith (fun cell a => cell && accepts a) row text

def manyRow (accepts : α → Bool) (text : List α) : List Bool → List Bool
  | [] => []
  | cell :: row => cell :: manyCells accepts cell text row

def upToRow (stop : α → Bool) (text : List α) : List Bool → List Bool
  | [] => []
  | cell :: row => cell :: upToCells stop cell text row

def firstRow (text : List α) : List Bool := true :: List.replicate text.length false

def Piece.next : Piece α → List α → List Bool → List Bool
  | .one accepts => oneRow accepts
  | .many accepts => manyRow accepts
  | .upTo stop => upToRow stop

/-- A row over what is left of a text reads a language, from what was seen of it on. -/
def Reads (L : Language α) : List α → List α → List Bool → Prop
  | seen, [], row => ∃ cell, row = [cell] ∧ (cell = true ↔ seen ∈ L)
  | seen, a :: text, row =>
    ∃ cell rest, row = cell :: rest ∧ (cell = true ↔ seen ∈ L) ∧ Reads L (seen ++ [a]) text rest

end Rows

section Words

variable {L : Language α} {w : List α} {a : α}
variable (accepts : α → Bool)

lemma nil_mem_many : [] ∈ (Piece.many accepts).language :=
  fun _ h => absurd h not_mem_nil

lemma nil_mem_upTo (stop : α → Bool) : [] ∈ (Piece.upTo stop).language := .inl rfl

@[simp]
lemma nil_mem_mul_one : [] ∉ L * (Piece.one accepts).language := by
  intro hmem
  obtain ⟨u, -, v, ⟨b, rfl, -⟩, h⟩ := Language.mem_mul.mp hmem
  simp at h

@[simp]
lemma snoc_mem_mul_one : w ++ [a] ∈ L * (Piece.one accepts).language ↔ w ∈ L ∧ accepts a := by
  constructor
  · rintro ⟨u, hu, v, ⟨b, rfl, hb⟩, h⟩
    obtain ⟨rfl, hlast⟩ := append_inj' h rfl
    cases hlast
    exact ⟨hu, hb⟩
  · rintro ⟨hw, ha⟩
    exact ⟨w, hw, [a], ⟨a, rfl, ha⟩, rfl⟩

lemma mem_mul_of_nil {M : Language α} (hw : w ∈ L) (hM : [] ∈ M) : w ∈ L * M :=
  Language.mem_mul.mpr ⟨w, hw, [], hM, append_nil w⟩

@[simp]
lemma snoc_mem_mul_many :
    w ++ [a] ∈ L * (Piece.many accepts).language ↔
      w ++ [a] ∈ L ∨ (w ∈ L * (Piece.many accepts).language ∧ accepts a) := by
  constructor
  · intro hmem
    obtain ⟨u, hu, v, hv, h⟩ := Language.mem_mul.mp hmem
    rcases eq_nil_or_concat' v with rfl | ⟨v, b, rfl⟩
    · rw [append_nil] at h
      exact .inl (h ▸ hu)
    rw [← append_assoc] at h
    obtain ⟨rfl, hlast⟩ := append_inj' h rfl
    cases hlast
    have hinit : v ∈ (Piece.many accepts).language := fun b hb => hv b (mem_append_left _ hb)
    exact .inr ⟨Language.mem_mul.mpr ⟨u, hu, v, hinit, rfl⟩,
      hv a (mem_append_right _ (mem_singleton.mpr rfl))⟩
  · rintro (h | ⟨hmem, ha⟩)
    · exact mem_mul_of_nil h (nil_mem_many accepts)
    obtain ⟨u, hu, v, hv, rfl⟩ := Language.mem_mul.mp hmem
    refine Language.mem_mul.mpr ⟨u, hu, v ++ [a], ?_, (append_assoc u v [a]).symm⟩
    intro b hb
    rcases mem_append.mp hb with hb | hb
    · exact hv b hb
    · exact mem_singleton.mp hb ▸ ha

@[simp]
lemma snoc_mem_mul_upTo (stop : α → Bool) :
    w ++ [a] ∈ L * (Piece.upTo stop).language ↔ w ++ [a] ∈ L ∨ (stop a ∧ ∃ u, u <+: w ∧ u ∈ L) := by
  rw [Language.mem_mul]
  constructor
  · rintro ⟨u, hu, v, rfl | ⟨v, b, rfl, hb⟩, h⟩
    · rw [append_nil] at h
      exact .inl (h ▸ hu)
    rw [← append_assoc] at h
    obtain ⟨rfl, hlast⟩ := append_inj' h rfl
    cases hlast
    exact .inr ⟨hb, u, prefix_append u v, hu⟩
  · rintro (h | ⟨ha, u, ⟨v, rfl⟩, hu⟩)
    · exact ⟨_, h, [], nil_mem_upTo stop, append_nil _⟩
    · exact ⟨u, hu, v ++ [a], .inr ⟨v, a, rfl, ha⟩, (append_assoc u v [a]).symm⟩

end Words

section Sequences

variable {pieces : List (Piece α)} {w : List α} {a : α}

@[simp]
lemma mem_language_nil : w ∈ language ([] : List (Piece α)) ↔ w = [] := by
  simp [language, Language.mem_one]

@[simp]
lemma nil_notMem_language_one (accepts : α → Bool) : [] ∉ language (.one accepts :: pieces) := by
  rintro ⟨_, ⟨b, rfl, -⟩, v, -, h⟩
  simp at h

@[simp]
lemma cons_mem_language_one (accepts : α → Bool) :
    a :: w ∈ language (.one accepts :: pieces) ↔ accepts a ∧ w ∈ language pieces := by
  constructor
  · rintro ⟨_, ⟨b, rfl, hb⟩, v, hv, h⟩
    obtain ⟨rfl, rfl⟩ := cons.inj h
    exact ⟨hb, hv⟩
  · rintro ⟨ha, hw⟩
    exact ⟨[a], ⟨a, rfl, ha⟩, w, hw, rfl⟩

end Sequences

section Passes

variable {L : Language α}
variable {seen text : List α} {row : List Bool}

lemma Reads.last (h : Reads L seen text row) : row.getD text.length false ↔ seen ++ text ∈ L := by
  induction text generalizing seen row with
  | nil =>
    obtain ⟨cell, rfl, h⟩ := h
    simpa using h
  | cons a text ih =>
    obtain ⟨cell, rest, rfl, -, h⟩ := h
    have hrest := ih h
    simpa using hrest

end Passes

end GlobLib
