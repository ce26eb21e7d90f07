import Girt.Lib.Lines
import Girt.Proofs.Compact

/-!
# Text comparison

Outside of the edits both texts are the same bytes, and taking the new bytes in their place gives the new text.
-/

namespace Girt.ContentDiff
open ByteLib EditGraph Pieces List ContentEdit
open Lines (ofBytes)

section Offsets

variable (bs : Bytes) (off : Nat) (pcs : List Bytes)

def endsOf : Nat → List Bytes → List Nat
  | _, [] => []
  | offset, piece :: pcs => (offset + piece.length) :: endsOf (offset + piece.length) pcs

lemma length_endsOf : (endsOf off pcs).length = pcs.length := by
  induction pcs generalizing off with
  | nil => rfl
  | cons piece pcs ih => rw [endsOf, length_cons, ih, length_cons]

lemma getElem?_endsOf {i : Nat} (hi : i < pcs.length) :
    (endsOf off pcs)[i]? = some (off + (pcs.take (i + 1)).flatten.length) := by
  induction pcs generalizing off i with
  | nil => simp at hi
  | cons piece pcs ih =>
    cases i with
    | zero => simp [endsOf]
    | succ i =>
      rw [endsOf, getElem?_cons_succ, ih _ (by simpa using hi), take_succ_cons, flatten_cons,
        length_append, Nat.add_assoc]

lemma scan_eq_endsOf (bs : Bytes) :
    Lines.scan off bs ++ (Lines.unterminated bs).map (off + ·) =
      endsOf off (splitInclusive 10 bs) := by
  induction bs generalizing off with
  | nil => rfl
  | cons byte rest ih =>
    have hlast : rest ≠ [] → (Lines.unterminated (byte :: rest)).map (off + ·) =
        (Lines.unterminated rest).map (off + 1 + ·) := by
      intro hrest
      obtain ⟨first, rest, rfl⟩ := exists_cons_of_ne_nil hrest
      unfold Lines.unterminated
      rw [getLast?_cons_cons]
      split
      · rfl
      split_ifs
      · rfl
      · simp only [map_cons, map_nil, length_cons]
        congr 1
        omega
    have hnext := ih (off + 1)
    rw [Lines.scan, splitInclusive]
    split_ifs with hbyte
    · rw [endsOf, length_singleton, cons_append, ← hnext]
      by_cases hrest : rest = []
      · subst hrest
        simp [Lines.unterminated, hbyte]
      · rw [hlast hrest]
    · by_cases hrest : rest = []
      · subst hrest
        simp [Lines.unterminated, Lines.scan, splitInclusive, endsOf, hbyte]
      rw [hlast hrest, hnext]
      cases hcut : splitInclusive 10 rest with
      | nil =>
        have hflat := flatten_splitInclusive 10 rest
        rw [hcut] at hflat
        exact absurd hflat.symm hrest
      | cons piece pcs =>
        simp only [endsOf, length_cons]
        congr 1
        · omega
        · congr 1
          omega

lemma ofBytes_ends : (ofBytes bs).ends = endsOf 0 (splitInclusive 10 bs) := by
  rw [← scan_eq_endsOf]
  simp [ofBytes]

lemma ofBytes_len : (ofBytes bs).len = (splitInclusive 10 bs).length := by
  rw [Lines.len, ofBytes_ends, length_endsOf]

lemma ofBytes_offset {i : Nat} (hi : i ≤ (ofBytes bs).len) :
    (ofBytes bs).offset i = ((splitInclusive 10 bs).take i).flatten.length := by
  rw [ofBytes_len] at hi
  cases i with
  | zero => rfl
  | succ i =>
    rw [Lines.offset, ofBytes_ends, getD_eq_getElem?_getD, getElem?_endsOf 0 _ hi]
    simp

/-- The text of some lines. -/
def segment (start stop : Nat) : Bytes := (((splitInclusive 10 bs).take stop).drop start).flatten

lemma of_offsets (bytes : Bytes) {start stop : Nat} (hle : start ≤ stop)
    (hstop : stop ≤ (ofBytes bytes).len) :
    (Range.mk ((ofBytes bytes).offset start) ((ofBytes bytes).offset stop)).of bytes =
      segment bytes start stop := by
  rw [ofBytes_offset bytes (le_trans hle hstop), ofBytes_offset bytes hstop, Range.of, segment]
  generalize hpie : splitInclusive 10 bytes = pcs
  have hbs : bytes = (pcs.take stop).flatten ++ (pcs.drop stop).flatten := by
    rw [← flatten_append, take_append_drop, ← hpie, flatten_splitInclusive]
  have hcut : (pcs.take stop).flatten = (pcs.take start).flatten ++
      ((pcs.take stop).drop start).flatten := by
    rw [← flatten_append]
    conv_lhs => rw [← take_append_drop start (pcs.take stop), take_take, min_eq_left hle]
  rw [hbs, take_left' rfl, hcut, drop_left' rfl]

lemma ofBytes_pieces (bytes : Bytes) : (ofBytes bytes).pieces = splitInclusive 10 bytes := by
  refine ext_getElem? fun i => ?_
  rw [Lines.getElem?_pieces]
  split_ifs with hi
  · have hend : (ofBytes bytes).ends.getD i 0 = (ofBytes bytes).offset (i + 1) := rfl
    rw [Lines.line, hend]
    have hof := of_offsets bytes (Nat.le_succ i) hi
    rw [show (ofBytes bytes).bytes = bytes from rfl, hof, segment]
    rw [ofBytes_len] at hi
    rw [getElem?_eq_getElem hi, take_succ_eq_append_getElem hi,
      drop_left' (by rw [length_take]; omega)]
    simp
  · rw [ofBytes_len] at hi
    rw [getElem?_eq_none (by omega)]

lemma of_offset_end (bytes : Bytes) {start : Nat} (hst : start ≤ (ofBytes bytes).len) :
    bytes.drop ((ofBytes bytes).offset start) = segment bytes start (ofBytes bytes).len := by
  have hend : (ofBytes bytes).offset (ofBytes bytes).len = bytes.length := by
    rw [ofBytes_offset bytes (le_refl _), ofBytes_len, take_length, flatten_splitInclusive]
  rw [← of_offsets bytes hst (le_refl _), hend, Range.of]
  simp

end Offsets

section Result

/-- The bytes between ranges, before the first and after the last. -/
def gapsFrom (bytes : Bytes) : Nat → List Range → List Bytes
  | cursor, [] => [bytes.drop cursor]
  | cursor, range :: ranges => (Range.mk cursor range.start).of bytes :: gapsFrom bytes range.stop ranges

/-- Replaces the old bytes of each edit by its new bytes. -/
def applyFrom (old new : Bytes) : Nat → List ContentEdit → Bytes
  | cursor, [] => old.drop cursor
  | cursor, e :: edits => (Range.mk cursor e.oldBytes.start).of old ++ e.newBytes.of new ++ applyFrom old new e.oldBytes.stop edits

variable {old new : Bytes} {x y : Nat} {edits : List ContentEdit}

lemma segment_append {bytes : Bytes} {a b c : Nat} (hab : a ≤ b) (hbc : b ≤ c) :
    segment bytes a c = segment bytes a b ++ segment bytes b c := by
  unfold segment
  rw [← flatten_append]
  generalize splitInclusive 10 bytes = pcs
  have hbf : (pcs.take b).drop a = ((pcs.take c).drop a).take (b - a) := by
    rw [take_drop, take_take]
    congr 2
    omega
  have haf : (pcs.take c).drop b = ((pcs.take c).drop a).drop (b - a) := by
    rw [drop_drop]
    congr 1
    omega
  rw [hbf, haf, take_append_drop]

lemma segment_diagonal {length : Nat}
    (h : Diagonal (ofBytes old).pieces (ofBytes new).pieces x y length) :
    segment old x (x + length) = segment new y (y + length) := by
  unfold segment
  congr 1
  refine ext_getElem? fun j => ?_
  rw [ofBytes_pieces, ofBytes_pieces] at h
  rw [getElem?_drop, getElem?_drop, getElem?_take, getElem?_take]
  by_cases hj : j < length
  · obtain ⟨line, ha, hb⟩ := h j hj
    rw [if_pos (by omega), if_pos (by omega), ha, hb]
  · rw [if_neg (by omega), if_neg (by omega)]

lemma Aligned.bytes (h : Aligned (ofBytes old) (ofBytes new) x y edits) :
    gapsFrom old ((ofBytes old).offset x) (edits.map oldBytes) =
        gapsFrom new ((ofBytes new).offset y) (edits.map newBytes) ∧
      applyFrom old new ((ofBytes old).offset x) edits = new.drop ((ofBytes new).offset y) := by
  induction h with
  | @nil x y length hkeep hx hy =>
    have hsame := segment_diagonal hkeep
    rw [hx, hy, ← of_offset_end old (by omega), ← of_offset_end new (by omega)] at hsame
    exact ⟨congrArg ([·]) hsame, hsame⟩
  | @cons x y length oldLines newLines rest hkeep hx hy hle hle' hrest ih =>
    obtain ⟨hendX, hendY⟩ := hrest.le
    obtain ⟨hgaps, hres⟩ := ih
    have hsame := segment_diagonal hkeep
    rw [← hx, ← hy, ← of_offsets old (by omega) (by omega),
      ← of_offsets new (by omega) (by omega)] at hsame
    refine ⟨?_, ?_⟩
    · rw [map_cons, map_cons, gapsFrom, gapsFrom]
      simp only [edit, Lines.range]
      rw [hsame, hgaps]
    rw [applyFrom]
    simp only [edit, Lines.range]
    rw [hsame, hres, of_offsets new (by omega) (by omega), of_offsets new hle' hendY,
      of_offset_end new hendY, of_offset_end new (by omega), ← segment_append (by omega) hle',
      ← segment_append (by omega) hendY]

/-- A shortest edit sequence of two texts. -/
structure ShortestEdits (old new : Bytes) (edits : List ContentEdit) : Prop where
  /-- The edits are ordered, and at least one line is retained between two of them. -/
  separated : Separated edits
  /-- The lines of an edit are lines of the texts, and its bytes are those of its lines. -/
  ranges : ∀ e ∈ edits, e.oldLines.start ≤ e.oldLines.stop ∧ e.oldLines.stop ≤ (splitInclusive 10 old).length ∧
    e.newLines.start ≤ e.newLines.stop ∧ e.newLines.stop ≤ (splitInclusive 10 new).length ∧
    e.oldBytes.of old = segment old e.oldLines.start e.oldLines.stop ∧
    e.newBytes.of new = segment new e.newLines.start e.newLines.stop
  /-- Outside the edits both texts are the same bytes. -/
  gaps : gapsFrom old 0 (edits.map ContentEdit.oldBytes) = gapsFrom new 0 (edits.map ContentEdit.newBytes)
  /-- The edits turn the old text into the new one. -/
  applied : applyFrom old new 0 edits = new
  /-- The retained lines are a longest common subsequence. -/
  shortest : ∃ common : List Bytes, common.Sublist (splitInclusive 10 old) ∧ common.Sublist (splitInclusive 10 new) ∧
    editedLines edits + 2 * common.length = (splitInclusive 10 old).length + (splitInclusive 10 new).length ∧
    ∀ other : List Bytes, other.Sublist (splitInclusive 10 old) → other.Sublist (splitInclusive 10 new) →
      other.length ≤ common.length

lemma Aligned.ranges {old new : Lines} (h : Aligned old new x y edits) :
    ∀ e ∈ edits, e.oldLines.start ≤ e.oldLines.stop ∧
    e.oldLines.stop ≤ old.len ∧ e.newLines.start ≤ e.newLines.stop ∧ e.newLines.stop ≤ new.len ∧
    e = edit old new e.oldLines e.newLines := by
  induction h with
  | nil => simp
  | cons _ _ _ hle hle' hrest ih =>
    intro e he
    rcases mem_cons.mp he with rfl | he
    · exact ⟨hle, hrest.le.1, hle', hrest.le.2, rfl⟩
    · exact ih e he

lemma kept_sublist {α : Type} (lines : List α) (flags : List Bool) :
    (kept lines flags).Sublist lines := by
  induction lines generalizing flags with
  | nil => exact List.Sublist.slnil
  | cons line lines ih =>
    cases flags with
    | nil => exact nil_sublist _
    | cons flag flags =>
      rw [kept]
      split_ifs
      · exact (ih flags).cons line
      · exact (ih flags).cons_cons line

lemma Aligned.common (h : Aligned (ofBytes old) (ofBytes new) 0 0 edits) : ∃ common : List Bytes,
    common.Sublist (splitInclusive 10 old) ∧ common.Sublist (splitInclusive 10 new) ∧
      editedLines edits + 2 * common.length = (splitInclusive 10 old).length + (splitInclusive 10 new).length := by
  obtain ⟨hsame, htot⟩ := h.kept (changed_marks _ _) (changed_marks _ _)
  have hold := kept_sublist (ofBytes old).pieces (changed (ofBytes old).len (edits.map oldLines))
  have hnew := kept_sublist (ofBytes new).pieces (changed (ofBytes new).len (edits.map newLines))
  simp only [keptFrom, drop_zero, Nat.sub_zero] at hsame htot
  rw [← hsame] at hnew
  rw [← ofBytes_len, ← ofBytes_len, ← ofBytes_pieces, ← ofBytes_pieces]
  exact ⟨_, hold, hnew, htot⟩

lemma shortestEdits_of_aligned (h : Aligned (ofBytes old) (ofBytes new) 0 0 edits) (hsep : Separated edits)
    (hsho : ∀ common : List Bytes, common.Sublist (ofBytes old).pieces → common.Sublist (ofBytes new).pieces →
      editedLines edits + 2 * common.length ≤ (ofBytes old).len + (ofBytes new).len) :
    ShortestEdits old new edits := by
  obtain ⟨hgaps, happ⟩ := h.bytes
  obtain ⟨common, hold, hnew, htot⟩ := h.common
  simp only [ofBytes_pieces, ofBytes_len] at hsho
  refine ⟨hsep, fun e he => ?_, hgaps, happ, common, hold, hnew, htot, fun other hoth hoth' => ?_⟩
  · obtain ⟨hle, hstop, hle', hstop', hedit⟩ := h.ranges e he
    rw [← ofBytes_len, ← ofBytes_len]
    refine ⟨hle, hstop, hle', hstop', ?_, ?_⟩
    · rw [hedit]
      exact of_offsets old hle hstop
    · rw [hedit]
      exact of_offsets new hle' hstop'
  · have hle := hsho other hoth hoth'
    omega

lemma ShortestEdits.le_aligned {other : List ContentEdit} (h : ShortestEdits old new edits)
    (hother : Aligned (ofBytes old) (ofBytes new) 0 0 other) :
    editedLines edits ≤ editedLines other := by
  obtain ⟨common, -, -, htot, hmax⟩ := h.shortest
  obtain ⟨kept, hold, hnew, htot'⟩ := hother.common
  have hle := hmax kept hold hnew
  omega

/-- Limits that suffice to compare two texts. -/
def needed (old new : Bytes) : DiffLimits where
  maxInputBytes := old.length + new.length
  maxLines := (splitInclusive 10 old).length + (splitInclusive 10 new).length
  maxTrace := traceNeed ((splitInclusive 10 old).length + (splitInclusive 10 new).length + 1) 0

lemma len_pos {bs : Bytes} (h : bs ≠ []) : 0 < (ofBytes bs).len := by
  rw [ofBytes_len]
  refine length_pos_of_ne_nil fun hnone => h ?_
  rw [← flatten_splitInclusive 10 bs, hnone]
  rfl

lemma new_eq_ok {bs : Bytes} {rem : Nat} (h : (ofBytes bs).len ≤ rem) :
    Lines.new bs rem = .ok (ofBytes bs, rem - (ofBytes bs).len) :=
  reject_bind.mpr ⟨(not_lt.mpr h), rfl⟩

lemma textEdits_spec (indent : Bool) {lim : DiffLimits} (hne : old ≠ new) (hlim : needed old new ≤ lim) :
    ∃ edits, myersEdits (ofBytes old) (ofBytes new) lim.maxTrace >>= (fun edits =>
        compactEdits (ofBytes old) (ofBytes new) edits indent) = .ok edits ∧
      Aligned (ofBytes old) (ofBytes new) 0 0 edits ∧ ShortestEdits old new edits := by
  obtain ⟨-, -, htr⟩ := hlim
  rw [needed, ← ofBytes_len, ← ofBytes_len] at htr
  obtain ⟨fnd, hgot, hali, hsho⟩ := myersEdits_spec htr
  have hsome : 0 < (ofBytes old).len ∨ 0 < (ofBytes new).len := by
    by_cases hold : old = []
    · exact .inr (len_pos fun hnew => hne (hold.trans hnew.symm))
    · exact .inl (len_pos hold)
  obtain ⟨edits, hedi, hali', hsep, htot⟩ := compactEdits_spec indent hali hsome
  exact ⟨edits, bind_ok.mpr ⟨fnd, hgot, hedi⟩, hali',
    shortestEdits_of_aligned hali' hsep fun common hold hnew => by rw [htot]; exact hsho common hold hnew⟩

lemma diffWithOptions_eq {opts : Options} {lim : DiffLimits} (hlim : needed old new ≤ lim) :
    (old = new → diffWithOptions old new opts lim = .ok .unchanged) ∧
    (old ≠ new → opts.isBinary old new → diffWithOptions old new opts lim = .ok .binary) ∧
    (old ≠ new → opts.isBinary old new = false → ∃ edits, diffWithOptions old new opts lim = .ok (.text edits) ∧
      Aligned (ofBytes old) (ofBytes new) 0 0 edits ∧ ShortestEdits old new edits) := by
  have hbs : reject (lim.maxInputBytes < old.length + new.length) (DiffError.limit .inputBytes) = .ok () :=
    reject_ok.mpr (not_lt.mpr hlim.1)
  have hlines := hlim.2.1
  simp only [needed, ← ofBytes_len] at hlines
  unfold diffWithOptions
  rw [hbs]
  refine ⟨fun hsame => ?_, fun hne hbin => ?_, fun hne htext => ?_⟩
  · rw [if_pos hsame]
    rfl
  · rw [if_neg hne, if_pos hbin]
    rfl
  obtain ⟨edits, hedi, hres⟩ := textEdits_spec opts.indentHeuristic hne hlim
  obtain ⟨fnd, hgot, hcom⟩ := bind_ok.mp hedi
  refine ⟨edits, bind_ok.mpr ⟨(), rfl, ?_⟩, hres⟩
  rw [if_neg hne, if_neg (by rw [htext]; decide)]
  refine bind_ok.mpr ⟨_, new_eq_ok (by omega), bind_ok.mpr ⟨_, new_eq_ok (by omega), ?_⟩⟩
  exact bind_ok.mpr ⟨fnd, hgot, bind_ok.mpr ⟨edits, hcom, rfl⟩⟩

/-- With sufficient limits equal texts are unchanged, and different ones have a shortest edit sequence,
whatever the placement of edits. -/
theorem diff_shortest (old new : Bytes) (options : Options) (htext : options.isBinary old new = false) :
    ∃ need : DiffLimits, ∀ limits, need ≤ limits →
      (old = new → diffWithOptions old new options limits = .ok .unchanged) ∧
      (old ≠ new → ∃ edits, diffWithOptions old new options limits = .ok (.text edits) ∧ ShortestEdits old new edits) := by
  refine ⟨needed old new, fun limits hlim => ?_⟩
  obtain ⟨hsame, -, hdif⟩ := @diffWithOptions_eq old new options limits hlim
  refine ⟨hsame, fun hne => ?_⟩
  obtain ⟨edits, hedi, -, hsho⟩ := hdif hne htext
  exact ⟨edits, hedi, hsho⟩

theorem diff_shortest_sample : (Options.mk .auto true).isBinary [97, 10, 98, 10] [98, 10, 99] = false ∧
    ∃ need : DiffLimits, ∀ limits, need ≤ limits →
      ∃ edits, diffWithOptions [97, 10, 98, 10] [98, 10, 99] ⟨.auto, true⟩ limits = .ok (.text edits) ∧
        ShortestEdits [97, 10, 98, 10] [98, 10, 99] edits := by
  refine ⟨by decide, ?_⟩
  obtain ⟨need, hneed⟩ := diff_shortest [97, 10, 98, 10] [98, 10, 99] ⟨.auto, true⟩ (by decide)
  exact ⟨need, fun limits hlim => (hneed limits hlim).2 (by decide)⟩

end Result

end Girt.ContentDiff
