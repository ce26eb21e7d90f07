import Girt.Lib.EditGraph
import Girt.ContentDiff.Myers

/-!
# The search for shortest edits

The end is found at the least distance at which a path reaches it, and tracing back gives that many edited lines.
-/

namespace Girt.ContentDiff

open ByteLib EditGraph List

variable {y : Nat} {trace : List (List Nat)}

def Lines.pieces (lines : Lines) : List Bytes := (List.range lines.len).map lines.line

@[simp] lemma Lines.length_pieces (lines : Lines) : lines.pieces.length = lines.len := by
  simp [pieces]

lemma Lines.getElem?_pieces (lines : Lines) (i : Nat) :
    lines.pieces[i]? = if i < lines.len then some (lines.line i) else none := by
  rw [pieces, getElem?_map]
  split_ifs with h
  · rw [getElem?_range h]
    rfl
  · rw [getElem?_eq_none (by simpa using h)]
    rfl

variable {old new : Lines}

section Frontiers

variable {x distance slot : Nat} {row prev : List Nat}

lemma match_iff :
    Match old.pieces new.pieces x y ↔ x < old.len ∧ y < new.len ∧ old.line x = new.line y := by
  unfold Match
  rw [Lines.getElem?_pieces, Lines.getElem?_pieces]
  constructor
  · rintro ⟨line, hold, hnew⟩
    split_ifs at hold hnew with hx hy
    exact ⟨hx, hy, (Option.some.inj hold).trans (Option.some.inj hnew).symm⟩
  · rintro ⟨hx, hy, hline⟩
    rw [if_pos hx, if_pos hy, hline]
    exact ⟨_, rfl, rfl⟩

lemma snake_spec (old new : Lines) (x y : Nat) : ∃ len, snake old new x y = (x + len, y + len) ∧
    Diagonal old.pieces new.pieces x y len ∧ ¬ Match old.pieces new.pieces (x + len) (y + len) := by
  fun_induction snake old new x y with
  | case1 x y hmat ih =>
    obtain ⟨len, hsna, hkeep, hstop⟩ := ih
    have hx : x + 1 + len = x + (len + 1) := by omega
    have hy : y + 1 + len = y + (len + 1) := by omega
    refine ⟨len + 1, by rw [hsna, hx, hy], fun j hj => ?_, by rw [← hx, ← hy]; exact hstop⟩
    cases j with
    | zero => exact match_iff.mpr hmat
    | succ j =>
      have hnext := hkeep j (by omega)
      rwa [show x + 1 + j = x + (j + 1) by omega, show y + 1 + j = y + (j + 1) by omega] at hnext
  | case2 x y hstop => exact ⟨0, rfl, fun j hj => absurd hj (by omega), fun hmat => hstop (match_iff.mp hmat)⟩

lemma newPosition_eq_ok (hslot : slot ≤ distance) (h : x + distance = y + 2 * slot) :
    newPosition x distance slot = .ok y := by
  unfold newPosition
  simp only
  split_ifs with hle hge
  · congr 1
    omega
  · congr 1
    omega
  · omega

/-- The start of a slot: reached from the previous frontier by the last edit, and furthest of all. -/
structure Start (old new : Lines) (distance slot x y : Nat) : Prop where
  diagonal : x + (distance + 1) = y + 2 * slot
  path : Path old.pieces new.pieces (distance + 1) x y
  delete : ∀ x₀ y₀, Path old.pieces new.pieces distance x₀ y₀ → x₀ + 1 + (distance + 1) = y₀ + 2 * slot → x₀ + 1 ≤ x
  insert : ∀ x₀ y₀, Path old.pieces new.pieces distance x₀ y₀ → x₀ + (distance + 1) = y₀ + 1 + 2 * slot → x₀ ≤ x

lemma getD_of_getElem? {i : Nat} (h : row[i]? = some x) : row.getD i 0 = x := by
  rw [getD_eq_getElem?_getD, h]
  rfl

lemma start_of_deletion (h : Frontier old.pieces new.pieces distance prev)
    (hslot : slot ≤ distance + 1) (hdel : deletion prev slot) :
    ∃ x y, prev[slot - 1]? = some x ∧ slot - 1 ≤ distance ∧ x + distance = y + 2 * (slot - 1) ∧
      Path old.pieces new.pieces distance x y ∧ Start old new distance slot (x + 1) y := by
  unfold deletion at hdel
  simp only [Bool.and_eq_true, decide_eq_true_eq, Bool.or_eq_true] at hdel
  obtain ⟨hpos, hcho⟩ := hdel
  obtain ⟨x, hx⟩ := h.get (by omega : slot - 1 ≤ distance)
  obtain ⟨y, hdia, hpath⟩ := h.path _ x hx
  refine ⟨x, y, hx, by omega, hdia, hpath, by omega, hpath.delete, fun x₀ y₀ hpath₀ hdia₀ => ?_,
    fun x₀ y₀ hpath₀ hdia₀ => ?_⟩
  · have := h.furthest _ x hx x₀ y₀ hpath₀ (by omega)
    omega
  rcases hcho with hlast | hge
  · rw [h.length] at hlast
    obtain ⟨slot₀, hle, hslot₀⟩ := hpath₀.slot
    omega
  by_cases hlast : slot = distance + 1
  · obtain ⟨slot₀, hle, hslot₀⟩ := hpath₀.slot
    omega
  obtain ⟨z, hz⟩ := h.get (by omega : slot ≤ distance)
  rw [getD_of_getElem? hx, getD_of_getElem? hz] at hge
  have := h.furthest _ z hz x₀ y₀ hpath₀ (by omega)
  omega

lemma start_of_insertion (h : Frontier old.pieces new.pieces distance prev)
    (hslot : slot ≤ distance + 1) (hdel : deletion prev slot = false) :
    ∃ x y, prev[slot]? = some x ∧ slot ≤ distance ∧ x + distance = y + 2 * slot ∧
      Path old.pieces new.pieces distance x y ∧ Start old new distance slot x (y + 1) := by
  unfold deletion at hdel
  simp only [Bool.and_eq_false_iff, decide_eq_false_iff_not, Bool.or_eq_false_iff, not_not] at hdel
  have hle : slot ≤ distance := by
    rcases hdel with hzero | ⟨hlast, -⟩
    · omega
    · rw [h.length] at hlast
      omega
  obtain ⟨x, hx⟩ := h.get hle
  obtain ⟨y, hdia, hpath⟩ := h.path _ x hx
  refine ⟨x, y, hx, hle, hdia, hpath, by omega, hpath.insert, fun x₀ y₀ hpath₀ hdia₀ => ?_,
    fun x₀ y₀ hpath₀ hdia₀ => h.furthest _ x hx x₀ y₀ hpath₀ (by omega)⟩
  obtain ⟨slot₀, hslot₀, hdia'⟩ := hpath₀.slot
  rcases hdel with hzero | ⟨-, hlt⟩
  · omega
  obtain ⟨z, hz⟩ := h.get (by omega : slot - 1 ≤ distance)
  rw [getD_of_getElem? hz, getD_of_getElem? hx] at hlt
  have := h.furthest _ z hz x₀ y₀ hpath₀ (by omega)
  omega

structure Furthest (old new : Lines) (distance slot x y : Nat) : Prop where
  diagonal : x + distance = y + 2 * slot
  path : Path old.pieces new.pieces distance x y
  furthest : ∀ x' y', Path old.pieces new.pieces distance x' y' → x' + distance = y' + 2 * slot → x' ≤ x

lemma Start.snake (h : Start old new distance slot x y) :
    ∃ len, snake old new x y = (x + len, y + len) ∧ Diagonal old.pieces new.pieces x y len ∧
      Furthest old new (distance + 1) slot (x + len) (y + len) := by
  obtain ⟨len, hsna, hkeep, hstop⟩ := snake_spec old new x y
  have hdia := h.diagonal
  refine ⟨len, hsna, hkeep, by omega, h.path.diagonal hkeep, fun x' y' hpath hslot => ?_⟩
  exact furthest_of_start hdia h.delete h.insert hstop hpath hslot

lemma furthest_zero (old new : Lines) :
    ∃ length, furthest old new [] 0 0 = .ok (length, length) ∧
      Diagonal old.pieces new.pieces 0 0 length ∧ Furthest old new 0 0 length length := by
  obtain ⟨length, hsna, hkeep, hstop⟩ := snake_spec old new 0 0
  simp only [Nat.zero_add] at hsna hstop
  refine ⟨length, ?_, hkeep, by omega, by simpa using Path.origin.diagonal hkeep, fun x' y' hpath _ => ?_⟩
  · unfold furthest
    simp only [if_true]
    refine bind_ok.mpr ⟨0, newPosition_eq_ok (by omega) (by omega), ?_⟩
    rw [hsna]
    rfl
  · obtain ⟨rfl, hkeep'⟩ := hpath.zero rfl
    by_contra hlt
    have hmat := hkeep' length (by omega)
    simp only [Nat.zero_add] at hmat
    exact hstop hmat

lemma furthest_succ (h : Frontier old.pieces new.pieces distance prev)
    (hslot : slot ≤ distance + 1) : ∃ x y, furthest old new prev (distance + 1) slot = .ok (x, y) ∧
      Furthest old new (distance + 1) slot x y := by
  obtain ⟨x, y, hst, hx⟩ : ∃ x y, Start old new distance slot x y ∧
      (if deletion prev slot then prev.getD (slot - 1) 0 + 1 else prev.getD slot 0) = x := by
    cases hdel : deletion prev slot with
    | true =>
      obtain ⟨x, y, hget, -, -, -, hst⟩ := start_of_deletion h hslot hdel
      exact ⟨x + 1, y, hst, by rw [getD_of_getElem? hget]; rfl⟩
    | false =>
      obtain ⟨x, y, hget, -, -, -, hst⟩ := start_of_insertion h hslot hdel
      exact ⟨x, y + 1, hst, getD_of_getElem? hget⟩
  obtain ⟨len, hsna, -, hfur⟩ := hst.snake
  refine ⟨x + len, y + len, ?_, hfur⟩
  unfold furthest
  simp only [Nat.succ_ne_zero, if_false, hx]
  refine bind_ok.mpr ⟨y, newPosition_eq_ok hslot hst.diagonal, ?_⟩
  rw [hsna]
  rfl

lemma Furthest.slot_le (h : Furthest old new distance slot x y) : slot ≤ distance := by
  obtain ⟨slot', hle, hslot'⟩ := h.path.slot
  have := h.diagonal
  omega

lemma Furthest.unique {x' y' : Nat} (h : Furthest old new distance slot x y)
    (h' : Furthest old new distance slot x' y') : x = x' ∧ y = y' := by
  have hx := h.furthest x' y' h'.path h'.diagonal
  have hx' := h'.furthest x y h.path h.diagonal
  have := h.diagonal
  have := h'.diagonal
  omega

/-- A frontier in which the end was not reached. -/
def Misses (old new : Lines) (distance : Nat) (row : List Nat) : Prop :=
  ∀ slot x, row[slot]? = some x → ∃ y, Furthest old new distance slot x y ∧ ¬ (x = old.len ∧ y = new.len)

lemma frontierFrom_spec {slots : Nat}
    (hnext : ∀ slot ≤ distance, ∃ x y, furthest old new prev distance slot = .ok (x, y) ∧ Furthest old new distance slot x y)
    (hlen : row.length + slots = distance + 1) (hrow : Misses old new distance row) :
    (∃ slot, frontierFrom old new prev distance slots row = .ok (.reached slot) ∧
      Furthest old new distance slot old.len new.len) ∨
    ∃ row', frontierFrom old new prev distance slots row = .ok (.frontier row') ∧ row'.length = distance + 1 ∧
      Misses old new distance row' := by
  induction slots generalizing row with
  | zero => exact .inr ⟨row, rfl, hlen, hrow⟩
  | succ slots ih =>
    obtain ⟨x, y, hfur, hpt⟩ := hnext row.length (by omega)
    by_cases hend : x = old.len ∧ y = new.len
    · refine .inl ⟨row.length, bind_ok.mpr ⟨(x, y), hfur, ?_⟩, hend.1 ▸ hend.2 ▸ hpt⟩
      exact if_pos hend
    have hstep : frontierFrom old new prev distance (slots + 1) row =
        frontierFrom old new prev distance slots (row ++ [x]) := by
      rw [frontierFrom, hfur]
      exact if_neg hend
    rw [hstep]
    refine ih (by rw [length_append, length_singleton]; omega) fun slot z hz => ?_
    rw [getElem?_append] at hz
    split_ifs at hz with hslot
    · exact hrow slot z hz
    have hlast : slot = row.length := by
      have := (List.getElem?_eq_some_iff.mp hz).1
      rw [length_singleton] at this
      omega
    subst hlast
    rw [Nat.sub_self] at hz
    cases hz
    exact ⟨y, hpt, hend⟩

lemma Misses.frontier (hlen : row.length = distance + 1)
    (h : Misses old new distance row) : Frontier old.pieces new.pieces distance row := by
  refine ⟨hlen, fun slot x hx => ?_, fun slot x hx => ?_⟩
  · obtain ⟨y, hpt, -⟩ := h slot x hx
    exact ⟨y, hpt.diagonal, hpt.path⟩
  · obtain ⟨y, hpt, -⟩ := h slot x hx
    exact hpt.furthest

lemma Misses.not_path (hlen : row.length = distance + 1) (h : Misses old new distance row)
    (hbf : ∀ d < distance, ¬ Path old.pieces new.pieces d old.len new.len) :
    ¬ Path old.pieces new.pieces distance old.len new.len := by
  intro hpath
  obtain ⟨slot, hslot, hdia⟩ := hpath.slot
  obtain ⟨x, hx⟩ := (h.frontier hlen).get hslot
  obtain ⟨y, hpt, hmiss⟩ := h slot x hx
  have hge := hpt.furthest _ _ hpath hdia
  have hsame := hpt.diagonal
  obtain ⟨hle, hclip⟩ := hpt.path.clip
  rw [Lines.length_pieces, Lines.length_pieces, min_eq_right (by omega), min_eq_right (by omega)] at hclip
  rw [Lines.length_pieces, Lines.length_pieces] at hle
  exact hbf _ (by omega) hclip

end Frontiers

section Search

/-- The trace: frontiers of all smaller distances, the latest first. -/
def Traced (old new : Lines) : List (List Nat) → Prop
  | [] => True
  | row :: trace => Frontier old.pieces new.pieces trace.length row ∧ Traced old new trace

/-- The positions that a search keeps: those of the frontiers of some distances from one on. -/
def traceNeed : Nat → Nat → Nat
  | 0, _ => 0
  | dists + 1, distance => distance + 1 + traceNeed dists (distance + 1)

lemma furthest_eq_ok (h : Traced old new trace) {slot : Nat} (hslot : slot ≤ trace.length) :
    ∃ x y, furthest old new (trace.headD []) trace.length slot = .ok (x, y) ∧
      Furthest old new trace.length slot x y := by
  cases trace with
  | nil =>
    obtain rfl : slot = 0 := Nat.le_zero.mp hslot
    obtain ⟨len, hfur, -, hpt⟩ := furthest_zero old new
    exact ⟨len, len, hfur, hpt⟩
  | cons prev trace => exact furthest_succ h.1 hslot

lemma search_spec {dists traceLeft : Nat} (h : Traced old new trace)
    (hbf : ∀ d < trace.length, ¬ Path old.pieces new.pieces d old.len new.len)
    (hdis : trace.length + dists = old.len + new.len + 1)
    (hleft : traceNeed dists trace.length ≤ traceLeft) :
    ∃ trace' slot, search old new dists trace traceLeft = .ok (trace', slot) ∧ Traced old new trace' ∧
      Furthest old new trace'.length slot old.len new.len ∧
      ∀ d < trace'.length, ¬ Path old.pieces new.pieces d old.len new.len := by
  induction dists generalizing trace traceLeft with
  | zero =>
    have hall : Path old.pieces new.pieces (old.len + new.len) old.len new.len := by
      simpa using Path.of_common (nil_sublist old.pieces) (nil_sublist new.pieces)
    exact absurd hall (hbf _ (by omega))
  | succ dists ih =>
    rw [traceNeed] at hleft
    have hcha : reject (traceLeft < trace.length + 1) (DiffError.limit .trace) = .ok () :=
      reject_ok.mpr (by omega)
    have hemp : Misses old new trace.length [] := fun slot x hx => by simp at hx
    rcases frontierFrom_spec (fun slot hslot => furthest_eq_ok h hslot)
      (by simp : ([] : List Nat).length + (trace.length + 1) = trace.length + 1) hemp with
      ⟨slot, hrow, hpt⟩ | ⟨row, hrow, hlen, hmiss⟩
    · exact ⟨trace, slot, bind_ok.mpr ⟨(), hcha, bind_ok.mpr ⟨_, hrow, rfl⟩⟩, h, hpt, hbf⟩
    have hnext : search old new (dists + 1) trace traceLeft =
        search old new dists (row :: trace) (traceLeft - (trace.length + 1)) := by
      rw [search, hcha, hrow]
      rfl
    rw [hnext]
    refine ih ⟨hmiss.frontier hlen, h⟩ (fun d hd => ?_) (by rw [length_cons]; omega)
      (by rw [length_cons]; omega)
    rcases Nat.lt_succ_iff_lt_or_eq.mp hd with hlt | rfl
    · exact hbf d hlt
    · exact hmiss.not_path hlen hbf

end Search

section Trace

variable {edits : List ContentEdit}

/-- Edits that account for all lines after a point: between them lines are kept. -/
inductive Aligned (old new : Lines) : Nat → Nat → List ContentEdit → Prop
  | nil {x y length : Nat} : Diagonal old.pieces new.pieces x y length → x + length = old.len → y + length = new.len →
      Aligned old new x y []
  | cons {x y length : Nat} {olds news : Range} {rest : List ContentEdit} :
      Diagonal old.pieces new.pieces x y length → olds.start = x + length → news.start = y + length →
      olds.start ≤ olds.stop → news.start ≤ news.stop →
      Aligned old new olds.stop news.stop rest → Aligned old new x y (edit old new olds news :: rest)

def editedLines (edits : List ContentEdit) : Nat := (edits.map fun e => e.oldLines.length + e.newLines.length).sum

lemma Aligned.extend {x len : Nat} (h : Aligned old new (x + len) (y + len) edits)
    (hkeep : Diagonal old.pieces new.pieces x y len) : Aligned old new x y edits := by
  cases h with
  | nil hrest hx hy => exact .nil (hkeep.append hrest) (by omega) (by omega)
  | cons hrest hx hy hle hle' htail => exact .cons (hkeep.append hrest) (by omega) (by omega) hle hle' htail

/-- The edits begin at a point, if there are any. -/
def StartsAt (x y : Nat) : List ContentEdit → Prop
  | [] => True
  | next :: _ => next.oldLines.start = x ∧ next.newLines.start = y

lemma addEdge_spec {x endX endY len : Nat} (h : Aligned old new (endX + len) (endY + len) edits)
    (hst : StartsAt (endX + len) (endY + len) edits)
    (hkeep : Diagonal old.pieces new.pieces endX endY len) (hx : x ≤ endX) (hy : y ≤ endY) :
    Aligned old new x y (addEdge old new x y endX endY edits) ∧ StartsAt x y (addEdge old new x y endX endY edits) ∧
      editedLines (addEdge old new x y endX endY edits) = editedLines edits + (endX - x) + (endY - y) := by
  have hnone := diagonal_zero old.pieces new.pieces x y
  cases edits with
  | nil =>
    refine ⟨.cons hnone rfl rfl hx hy (h.extend hkeep), ⟨rfl, rfl⟩, ?_⟩
    simp only [addEdge, editedLines, edit, Range.length, map_cons, map_nil, sum_cons, sum_nil]
    omega
  | cons next rest =>
    simp only [addEdge]
    split_ifs with htou
    · cases h with
      | @cons _ _ _ olds news _ hrest hnex hnext hle hle' htail =>
        simp only [edit] at htou
        have hsame : edit old new ⟨x, olds.stop⟩ ⟨y, news.stop⟩ =
            { oldLines := ⟨x, (edit old new olds news).oldLines.stop⟩
              newLines := ⟨y, (edit old new olds news).newLines.stop⟩
              oldBytes := ⟨old.offset x, (edit old new olds news).oldBytes.stop⟩
              newBytes := ⟨new.offset y, (edit old new olds news).newBytes.stop⟩ } := rfl
        rw [← hsame]
        refine ⟨.cons hnone rfl rfl ?_ ?_ htail, ⟨rfl, rfl⟩, ?_⟩
        · simp only
          omega
        · simp only
          omega
        · simp only [editedLines, edit, Range.length, map_cons, sum_cons]
          omega
    · refine ⟨.cons hnone rfl rfl hx hy (h.extend hkeep), ⟨rfl, rfl⟩, ?_⟩
      simp only [editedLines, edit, Range.length, map_cons, sum_cons]
      omega

lemma backtrack_spec {slot x : Nat} (h : Traced old new trace)
    (hpt : Furthest old new trace.length slot x y) (hali : Aligned old new x y edits)
    (hst : StartsAt x y edits) :
    ∃ edits', backtrack old new trace slot edits = .ok edits' ∧ Aligned old new 0 0 edits' ∧
      editedLines edits' = editedLines edits + trace.length := by
  induction trace generalizing slot x y edits with
  | nil =>
    obtain ⟨rfl, hkeep⟩ := hpt.path.zero rfl
    refine ⟨edits, rfl, ?_, rfl⟩
    rw [← Nat.zero_add x] at hali
    exact hali.extend hkeep
  | cons prev trace ih =>
    obtain ⟨hfro, htr⟩ := h
    -- the edge that leads to the start of this slot, and the frontier point it leaves
    obtain ⟨px, py, hget, hprev, hdia, hpath, hstarts⟩ : ∃ px py,
        prev[slot - (deletion prev slot).toNat]? = some px ∧
        slot - (deletion prev slot).toNat ≤ trace.length ∧
        px + trace.length = py + 2 * (slot - (deletion prev slot).toNat) ∧
        Path old.pieces new.pieces trace.length px py ∧
        Start old new trace.length slot (px + (deletion prev slot).toNat) (py + (! deletion prev slot).toNat) := by
      cases hdel : deletion prev slot with
      | true => exact start_of_deletion hfro hpt.slot_le hdel
      | false => exact start_of_insertion hfro hpt.slot_le hdel
    obtain ⟨len, -, hkeep, hfur⟩ := hstarts.snake
    obtain ⟨rfl, rfl⟩ := hpt.unique hfur
    obtain ⟨hali', hst', hcost⟩ := addEdge_spec hali hst hkeep (Nat.le_add_right px _)
      (Nat.le_add_right py _)
    have hbf : Furthest old new trace.length (slot - (deletion prev slot).toNat) px py :=
      ⟨hdia, hpath, hfro.furthest _ px hget⟩
    obtain ⟨edits', hedi, hall, htot⟩ := ih htr hbf hali' hst'
    refine ⟨edits', ?_, hall, ?_⟩
    · unfold backtrack
      simp only [getD_of_getElem? hget]
      exact bind_ok.mpr ⟨py, newPosition_eq_ok hprev hdia, hedi⟩
    · rw [htot, hcost, length_cons]
      cases deletion prev slot <;> simp <;> omega

lemma myersEdits_spec {traceLeft : Nat} (hleft : traceNeed (old.len + new.len + 1) 0 ≤ traceLeft) :
    ∃ edits, myersEdits old new traceLeft = .ok edits ∧ Aligned old new 0 0 edits ∧
      ∀ common : List Bytes, common.Sublist old.pieces → common.Sublist new.pieces →
        editedLines edits + 2 * common.length ≤ old.len + new.len := by
  unfold myersEdits
  split_ifs with hemp
  · have hend : Aligned old new old.len new.len [] := .nil (diagonal_zero _ _ _ _) rfl rfl
    refine ⟨_, rfl, .cons (diagonal_zero _ _ _ _) rfl rfl (Nat.zero_le _) (Nat.zero_le _) hend,
      fun common hold hnew => ?_⟩
    have hlen := hold.length_le
    have hlen' := hnew.length_le
    rw [Lines.length_pieces] at hlen hlen'
    simp only [editedLines, edit, Range.length, map_cons, map_nil, sum_cons, sum_nil]
    omega
  · have hemp' : Traced old new [] := trivial
    have hdis : ([] : List (List Nat)).length + (old.len + new.len + 1) = old.len + new.len + 1 := by simp
    obtain ⟨trace, slot, hsea, htr, hpt, hsho⟩ :=
      search_spec hemp' (fun d hd => absurd hd (Nat.not_lt_zero d)) hdis hleft
    have hend : Aligned old new old.len new.len [] := .nil (diagonal_zero _ _ _ _) rfl rfl
    obtain ⟨edits, hedi, hali, htot⟩ := backtrack_spec htr hpt hend trivial
    refine ⟨edits, bind_ok.mpr ⟨_, hsea, hedi⟩, hali, fun common hold hnew => ?_⟩
    have hpath := Path.of_common hold hnew
    have hlen := hold.length_le
    have hlen' := hnew.length_le
    rw [Lines.length_pieces] at hpath hlen hlen'
    rw [Lines.length_pieces] at hpath
    by_contra hmore
    refine hsho _ ?_ hpath
    rw [show editedLines ([] : List ContentEdit) = 0 from rfl, Nat.zero_add] at htot
    omega

end Trace

end Girt.ContentDiff
