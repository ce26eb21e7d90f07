import Mathlib.Tactic.Common

/-!
# Separated lists

Pieces that keep the separator they end in, and the lists they come from.
-/

namespace Pieces

open List

variable {α : Type}

/-- The pieces of a list, each with the separator that ends it. -/
def splitInclusive [DecidableEq α] (sep : α) : List α → List (List α)
  | [] => []
  | a :: l =>
    if a = sep then [a] :: splitInclusive sep l
    else
      match splitInclusive sep l with
      | [] => [[a]]
      | piece :: rest => (a :: piece) :: rest

def joinLines (sep : α) (lines : List (List α)) : List α := lines.flatMap (fun line => line ++ [sep])

variable {sep : α}

lemma joinLines_eq_intercalate {lines : List (List α)} (h : lines ≠ []) :
    joinLines sep lines = [sep].intercalate lines ++ [sep] := by
  induction lines with
  | nil => exact absurd rfl h
  | cons line lines ih =>
    cases lines with
    | nil => simp [joinLines]
    | cons next lines =>
      have hrest := ih (cons_ne_nil _ _)
      have hjoin : joinLines sep (line :: next :: lines) = line ++ [sep] ++ joinLines sep (next :: lines) := by
        simp [joinLines]
      rw [hjoin, hrest]
      simp [intercalate]

section Lined

def Terminated (sep : α) (piece : List α) : Prop := ∃ line, piece = line ++ [sep] ∧ sep ∉ line

/-- The pieces that a list can have: each is terminated, apart from the last, which need not be. -/
def Lined (sep : α) : List (List α) → Prop
  | [] => True
  | [piece] => piece ≠ [] ∧ sep ∉ piece.dropLast
  | piece :: next :: rest => Terminated sep piece ∧ Lined sep (next :: rest)

variable {piece : List α} {pieces : List (List α)}

lemma Terminated.isPiece (h : Terminated sep piece) : piece ≠ [] ∧ sep ∉ piece.dropLast := by
  obtain ⟨line, rfl, hline⟩ := h
  exact ⟨by simp, by simpa using hline⟩

lemma Lined.cons (hpiece : Terminated sep piece) (h : Lined sep pieces) :
    Lined sep (piece :: pieces) := by
  cases pieces with
  | nil => exact hpiece.isPiece
  | cons next rest => exact ⟨hpiece, h⟩

lemma Lined.tail (h : Lined sep (piece :: pieces)) : Lined sep pieces := by
  cases pieces with
  | nil => trivial
  | cons next rest => exact h.2

lemma Lined.drop (h : Lined sep pieces) (k : Nat) : Lined sep (pieces.drop k) := by
  induction k generalizing pieces with
  | zero => exact h
  | succ k ih =>
    cases pieces with
    | nil => trivial
    | cons piece pieces => exact ih h.tail

lemma Lined.take (h : Lined sep pieces) (k : Nat) : Lined sep (pieces.take k) := by
  induction k generalizing pieces with
  | zero => trivial
  | succ k ih =>
    cases pieces with
    | nil => trivial
    | cons piece pieces =>
      cases pieces with
      | nil => simpa using h
      | cons next rest => exact Lined.cons h.1 (ih h.2)

lemma Lined.ne_nil (h : Lined sep pieces) : ∀ piece ∈ pieces, piece ≠ [] := by
  induction pieces with
  | nil => simp
  | cons first pieces ih =>
    intro piece hpc
    rcases mem_cons.mp hpc with rfl | hpc
    · cases pieces with
      | nil => exact h.1
      | cons next rest => exact h.1.isPiece.1
    · exact ih h.tail piece hpc

lemma Lined.terminated {rest : List (List α)} (h : Lined sep (pieces ++ rest)) (hrest : rest ≠ []) :
    ∀ piece ∈ pieces, Terminated sep piece := by
  induction pieces with
  | nil => simp
  | cons first pieces ih =>
    intro piece hpc
    have hfirst : Terminated sep first := by
      cases pieces with
      | nil =>
        obtain ⟨next, rest, rfl⟩ := exists_cons_of_ne_nil hrest
        exact h.1
      | cons next pieces => exact h.1
    rcases mem_cons.mp hpc with rfl | hpc
    · exact hfirst
    · exact ih h.tail piece hpc

lemma Lined.append {rest : List (List α)} (hpieces : ∀ piece ∈ pieces, Terminated sep piece)
    (h : Lined sep rest) : Lined sep (pieces ++ rest) := by
  induction pieces with
  | nil => exact h
  | cons piece pieces ih =>
    exact Lined.cons (hpieces piece (.head _)) (ih fun other hoth => hpieces other (.tail _ hoth))

end Lined

variable [DecidableEq α]

lemma flatten_splitInclusive (sep : α) (l : List α) : (splitInclusive sep l).flatten = l := by
  induction l with
  | nil => rfl
  | cons a l ih =>
    rw [splitInclusive]
    split
    · rw [flatten_cons, ih]
      rfl
    cases hcut : splitInclusive sep l with
    | nil | cons piece pieces =>
      rw [hcut] at ih
      simp [← ih]

def splitOnce (l : List α) (sep : α) : Option (List α × List α) :=
  (l.findIdx? (· == sep)).map fun position => (l.take position, l.drop (position + 1))

lemma splitOnce_eq_some {l before after : List α} :
    splitOnce l sep = some (before, after) ↔ l = before ++ sep :: after ∧ sep ∉ before := by
  induction l generalizing before with
  | nil => simp [splitOnce]
  | cons a l ih =>
    by_cases ha : a = sep
    · subst ha
      cases before with
      | nil => simp [splitOnce, findIdx?_cons]
      | cons first before =>
        simp only [splitOnce, findIdx?_cons, beq_self_eq_true, if_true, Option.map_some, take_zero,
          Option.some.injEq, Prod.mk.injEq, nil_eq, reduceCtorEq, false_and, cons_append, cons.injEq,
          false_iff, not_and, Decidable.not_not]
        rintro ⟨rfl, -⟩
        exact .head _
    · cases before with
      | nil =>
        simp [splitOnce, findIdx?_cons, ha, Option.map_eq_some_iff]
      | cons first before =>
        have hih := @ih before
        simp only [splitOnce, Option.map_eq_some_iff, Prod.mk.injEq] at hih ⊢
        simp only [findIdx?_cons, beq_iff_eq, ha, if_false, Option.map_eq_some_iff]
        constructor
        · rintro ⟨_, ⟨position, hpos, rfl⟩, htake, hdrop⟩
          obtain ⟨rfl, rfl⟩ := cons.inj (take_succ_cons ▸ htake)
          obtain ⟨hl, hmem⟩ := hih.mp ⟨position, hpos, rfl, hdrop⟩
          refine ⟨by rw [cons_append, ← hl], ?_⟩
          simpa [mem_cons, Ne.symm ha] using hmem
        · rintro ⟨hl, hmem⟩
          obtain ⟨rfl, htail⟩ := cons.inj hl
          obtain ⟨position, hpos, htake, hdrop⟩ := hih.mpr ⟨htail, fun h => hmem (.tail _ h)⟩
          exact ⟨position + 1, ⟨position, hpos, rfl⟩, by simp [htake], hdrop⟩

lemma splitInclusive_append_cons {line : List α} (h : sep ∉ line) (rest : List α) :
    splitInclusive sep (line ++ sep :: rest) = (line ++ [sep]) :: splitInclusive sep rest := by
  induction line with
  | nil => simp [splitInclusive]
  | cons a line ih =>
    have ha : a ≠ sep := by
      rintro rfl
      exact h (.head _)
    have hline : sep ∉ line := fun hs => h (.tail _ hs)
    rw [cons_append, splitInclusive, if_neg ha, ih hline]
    rfl

lemma splitInclusive_joinLines {lines : List (List α)} (h : ∀ line ∈ lines, sep ∉ line) :
    splitInclusive sep (joinLines sep lines) = lines.map (· ++ [sep]) := by
  induction lines with
  | nil => rfl
  | cons line lines ih =>
    have hjoin : joinLines sep (line :: lines) = line ++ sep :: joinLines sep lines := by
      simp [joinLines]
    rw [hjoin, splitInclusive_append_cons (h line mem_cons_self),
      ih (fun l hl => h l (.tail _ hl)), map_cons]

lemma not_mem_of_mem_splitOn {l line : List α} (h : line ∈ l.splitOn sep) : sep ∉ line := by
  induction l generalizing line with
  | nil =>
    rw [splitOn_nil, mem_singleton] at h
    subst h
    exact not_mem_nil
  | cons a l ih =>
    rw [splitOn_cons_eq_if_modifyHead] at h
    split at h
    · rcases mem_cons.mp h with rfl | h
      · exact not_mem_nil
      · exact ih h
    rename_i ha
    cases hl : l.splitOn sep with
    | nil => exact absurd hl (splitOn_ne_nil _ _)
    | cons first rest =>
      rw [hl] at h ih
      rcases mem_cons.mp h with rfl | h
      · rw [mem_cons, not_or]
        exact ⟨fun hs => ha (by simp [hs]), ih mem_cons_self⟩
      · exact ih (.tail _ h)

lemma mem_splitOn_of_append {before last : List α} (h : sep ∉ last) :
    last ∈ (before ++ sep :: last).splitOn sep := by
  rw [splitOn_append_cons_self, splitOn_eq_singleton h]
  exact mem_append_right _ (.head _)

lemma joinLines_splitOn {l : List α} (h : l.getLast? = some sep) :
    joinLines sep (l.dropLast.splitOn sep) = l := by
  have hne : l.dropLast.splitOn sep ≠ [] := splitOn_ne_nil _ _
  rw [joinLines_eq_intercalate hne, intercalate_splitOn]
  obtain ⟨init, rfl⟩ := getLast?_eq_some_iff.mp h
  simp

lemma splitOn_joinLines {lines : List (List α)} (h : ∀ line ∈ lines, sep ∉ line)
    (hne : lines ≠ []) : (joinLines sep lines).dropLast.splitOn sep = lines := by
  rw [joinLines_eq_intercalate hne, dropLast_concat]
  exact splitOn_intercalate sep h hne

section Lined

variable {piece : List α} {pieces : List (List α)}

lemma splitInclusive_piece (hne : piece ≠ []) (h : sep ∉ piece.dropLast) :
    splitInclusive sep piece = [piece] := by
  induction piece with
  | nil => exact absurd rfl hne
  | cons a piece ih =>
    cases piece with
    | nil => simp [splitInclusive]
    | cons b piece =>
      rw [dropLast_cons_cons, mem_cons, not_or] at h
      rw [splitInclusive, if_neg (Ne.symm h.1), ih (by simp) h.2]

lemma lined_splitInclusive (sep : α) (l : List α) : Lined sep (splitInclusive sep l) := by
  induction l with
  | nil => trivial
  | cons a l ih =>
    rw [splitInclusive]
    split_ifs with ha
    · exact Lined.cons ⟨[], by simp [ha], by simp⟩ ih
    cases hcut : splitInclusive sep l with
    | nil => exact ⟨by simp, by simp⟩
    | cons piece rest =>
      rw [hcut] at ih
      cases rest with
      | nil =>
        obtain ⟨hne, hpc⟩ := ih
        refine ⟨by simp, ?_⟩
        obtain ⟨b, piece, rfl⟩ := exists_cons_of_ne_nil hne
        rw [dropLast_cons_cons, mem_cons, not_or]
        exact ⟨Ne.symm ha, hpc⟩
      | cons next rest =>
        obtain ⟨⟨line, rfl, hline⟩, hrest⟩ := ih
        exact ⟨⟨a :: line, rfl, by simpa [Ne.symm ha] using hline⟩, hrest⟩

lemma splitInclusive_flatten (h : Lined sep pieces) :
    splitInclusive sep pieces.flatten = pieces := by
  induction pieces with
  | nil => rfl
  | cons piece pieces ih =>
    cases pieces with
    | nil =>
      rw [flatten_cons, flatten_nil, append_nil]
      exact splitInclusive_piece h.1 h.2
    | cons next rest =>
      obtain ⟨⟨line, rfl, hline⟩, hrest⟩ := h
      rw [flatten_cons, append_assoc, singleton_append, splitInclusive_append_cons hline, ih hrest]

end Lined

end Pieces
