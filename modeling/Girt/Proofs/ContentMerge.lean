import Girt.Merge.Content
import Girt.Proofs.Diff

/-!
# Merged contents

The three contents are cut into consecutive regions, each taken from a side or kept as a conflict, and
exchanging the sides exchanges the conflicts.
-/

namespace Girt.Merge

open ByteLib Pieces ContentDiff EditGraph List
open Lines (ofBytes)

variable {left right taken : List ContentEdit} {old : Lines} {hunks : List ContentHunk} {options : ContentOptions}

section Positions

variable {bytes : Bytes} {a b : Nat}

lemma segment_pieces (bytes : Bytes) (a b : Nat) : splitInclusive 10 (segment bytes a b) =
    ((splitInclusive 10 bytes).take b).drop a :=
  splitInclusive_flatten (((lined_splitInclusive 10 bytes).take b).drop a)

lemma offset_lt (hab : a < b) (hb : b ≤ (ofBytes bytes).len) :
    (ofBytes bytes).offset a < (ofBytes bytes).offset b := by
  rw [ofBytes_offset bytes (by omega), ofBytes_offset bytes hb]
  rw [ofBytes_len] at hb
  have hcut : ((splitInclusive 10 bytes).take b).flatten =
      ((splitInclusive 10 bytes).take a).flatten ++ segment bytes a b := by
    have hwho := @segment_append bytes 0 a b (Nat.zero_le a) (le_of_lt hab)
    simpa [ContentDiff.segment] using hwho
  have hpos : 0 < (segment bytes a b).length := by
    have hmem : (splitInclusive 10 bytes)[a] ∈ ((splitInclusive 10 bytes).take b).drop a := by
      refine mem_iff_getElem?.mpr ⟨0, ?_⟩
      rw [getElem?_drop, getElem?_take, if_pos (by omega)]
      exact getElem?_eq_getElem (by omega)
    have hne := (lined_splitInclusive 10 bytes).ne_nil _
      (getElem_mem (by omega : a < (splitInclusive 10 bytes).length))
    refine length_pos_of_ne_nil fun hemp => hne ?_
    exact flatten_eq_nil_iff.mp hemp _ hmem
  rw [hcut, length_append]
  omega

lemma offset_le_iff (ha : a ≤ (ofBytes bytes).len) (hb : b ≤ (ofBytes bytes).len) :
    (ofBytes bytes).offset a ≤ (ofBytes bytes).offset b ↔ a ≤ b := by
  constructor
  · by_contra hlt
    have := offset_lt (by omega : b < a) ha
    omega
  intro hle
  rcases Nat.eq_or_lt_of_le hle with rfl | hlt
  · exact le_refl _
  · exact le_of_lt (offset_lt hlt hb)

lemma records_between (hab : a ≤ b) (hb : b ≤ (ofBytes bytes).len) :
    records ((Range.mk ((ofBytes bytes).offset a) ((ofBytes bytes).offset b)).of bytes) =
      b - a := by
  rw [of_offsets bytes hab hb, records, segment_pieces, length_drop, length_take]
  rw [ofBytes_len] at hb
  omega

lemma advance_offset {n : Nat} (h : a + n ≤ (ofBytes bytes).len) :
    advance bytes ((ofBytes bytes).offset a) n = (ofBytes bytes).offset (a + n) := by
  rw [advance, of_offset_end bytes (by omega), segment_pieces, ofBytes_offset bytes (by omega),
    ofBytes_offset bytes h, ofBytes_len, take_length, take_add, flatten_append, length_append]

end Positions

section Sides

variable {base side : Bytes} {X Y E : Nat} {edits : List ContentEdit}
variable {new : Lines}

lemma Aligned.advance (h : Aligned old new X Y edits) (hX : X ≤ E) (hE : E ≤ old.len)
    (hstarts : ∀ e ∈ edits, E ≤ e.oldLines.start) :
    Diagonal old.pieces new.pieces X Y (E - X) ∧ Aligned old new E (Y + (E - X)) edits := by
  have hshi : ∀ {length : Nat}, E - X ≤ length → Diagonal old.pieces new.pieces X Y length →
      Diagonal old.pieces new.pieces X Y (E - X) ∧
        Diagonal old.pieces new.pieces E (Y + (E - X)) (length - (E - X)) := by
    intro length hle hkeep
    refine ⟨fun j hj => hkeep j (by omega), fun j hj => ?_⟩
    have hnext := hkeep (E - X + j) (by omega)
    rwa [show X + (E - X + j) = E + j by omega, ← Nat.add_assoc] at hnext
  cases h with
  | nil hkeep hx hy =>
    obtain ⟨hbf, haf⟩ := hshi (by omega) hkeep
    exact ⟨hbf, .nil haf (by omega) (by omega)⟩
  | @cons _ _ length olds news rest hkeep hx hy hle hle' hrest =>
    have hst : E ≤ olds.start := hstarts _ (.head _)
    obtain ⟨hbf, haf⟩ := hshi (by omega) hkeep
    exact ⟨hbf, .cons haf (by omega) (by omega) hle hle' hrest⟩

lemma Aligned.back (h : Aligned old new E (Y + (E - X)) edits) (hX : X ≤ E)
    (hkeep : Diagonal old.pieces new.pieces X Y (E - X)) : Aligned old new X Y edits := by
  refine Aligned.extend ?_ hkeep
  rwa [Nat.add_sub_cancel' hX]

/-- The text of a side for a region is the part of the side that is aligned with it. -/
lemma applyFrom_spec {rest : List ContentEdit}
    (h : Aligned (ofBytes base) (ofBytes side) X Y (taken ++ rest)) (hX : X ≤ E)
    (hE : E ≤ (ofBytes base).len) (htook : ∀ e ∈ taken, e.oldLines.stop ≤ E)
    (hrest : ∀ e ∈ rest, E ≤ e.oldLines.start) :
    ∃ Y', Y ≤ Y' ∧ Aligned (ofBytes base) (ofBytes side) E Y' rest ∧
      applyFrom base side ((ofBytes base).offset E) ((ofBytes base).offset X)
        ((ofBytes side).offset Y) taken = (segment side Y Y', (ofBytes side).offset Y') ∧
      (taken = [] → segment base X E = segment side Y Y') ∧
      ∀ other, Aligned (ofBytes base) (ofBytes side) E Y' other →
        Aligned (ofBytes base) (ofBytes side) X Y (taken ++ other) := by
  induction taken generalizing X Y with
  | nil =>
    obtain ⟨hkeep, haf⟩ := Aligned.advance h hX hE hrest
    have hle := haf.le.2
    have hsame := segment_diagonal hkeep
    rw [show X + (E - X) = E by omega] at hsame
    refine ⟨Y + (E - X), by omega, haf, ?_, fun _ => hsame, fun other hoth => ?_⟩
    · rw [applyFrom, records_between hX hE, advance_offset hle, of_offsets side (by omega) hle]
    · exact Aligned.back hoth hX hkeep
  | cons e taken ih =>
    cases h with
    | @cons _ _ length oldLines newLines _ hkeep hx hy hle hle' htail =>
      obtain ⟨hendX, hendY⟩ := htail.le
      have hstop : oldLines.stop ≤ E := htook _ (.head _)
      obtain ⟨Y', hY', hfin, happ, -, hback⟩ := ih htail hstop fun other hoth => htook other (.tail _ hoth)
      refine ⟨Y', by omega, hfin, ?_, fun hnil => absurd hnil (cons_ne_nil _ _),
        fun other hoth => .cons hkeep hx hy hle hle' (hback other hoth)⟩
      have hst : (edit (ofBytes base) (ofBytes side) oldLines newLines).oldBytes.start =
          (ofBytes base).offset oldLines.start := rfl
      have hmat : Merge.advance side ((ofBytes side).offset Y) (oldLines.start - X) =
          (ofBytes side).offset newLines.start := by
        rw [advance_offset (by omega), show Y + (oldLines.start - X) = newLines.start by omega]
      rw [applyFrom, hst, records_between (by omega) (by omega), hmat]
      simp only [edit, Lines.range]
      rw [happ, of_offsets side (by omega) (by omega), of_offsets side hle' hendY,
        ← segment_append (by omega) hle', ← segment_append (by omega) hY']

end Sides

section Connection

variable {edits rest : List ContentEdit} {stop : Nat}
variable {last : Nat} {P : Nat → Prop}

/-- Edits cut at an end: those taken lie before it, those that remain begin after it. -/
structure Cut (edits taken rest : List ContentEdit) (stop : Nat) : Prop where
  append : taken ++ rest = edits
  before : ∀ e ∈ taken, e.oldBytes.stop ≤ stop
  after : ∀ e ∈ rest.head?, stop < e.oldBytes.start

lemma Cut.extend {more after : List ContentEdit} (h : Cut edits taken rest stop) (hle : stop ≤ last)
    (hmore : Cut rest more after last) : Cut edits (taken ++ more) after last := by
  refine ⟨by rw [append_assoc, hmore.append, h.append], fun e he => ?_, hmore.after⟩
  rcases mem_append.mp he with he | he
  · exact (h.before e he).trans hle
  · exact hmore.before e he

lemma takeTouching_cut (edits : List ContentEdit) (stop : Nat) :
    Cut edits (takeTouching edits stop).taken (takeTouching edits stop).rest (takeTouching edits stop).stop := by
  induction edits generalizing stop with
  | nil => exact ⟨rfl, by simp [takeTouching], by simp [takeTouching]⟩
  | cons e edits ih =>
    rw [takeTouching]
    split_ifs with htou
    · obtain ⟨happ, hstep, hst⟩ := ih (max stop e.oldBytes.stop)
      have hle := (le_max_right _ _).trans (le_takeTouching_stop edits (max stop e.oldBytes.stop))
      exact ⟨congrArg (e :: ·) happ, forall_mem_cons.mpr ⟨hle, hstep⟩, hst⟩
    · exact ⟨rfl, by simp, by simpa using htou⟩

lemma takeTouching_stop (hstop : P stop) (h : ∀ e ∈ edits, P e.oldBytes.stop) :
    P (takeTouching edits stop).stop := by
  induction edits generalizing stop with
  | nil => exact hstop
  | cons e edits ih =>
    obtain ⟨he, hes⟩ := forall_mem_cons.mp h
    rw [takeTouching]
    split_ifs
    · exact ih (max_rec' P hstop he) hes
    · exact hstop

/-- Where nothing is taken the end does not move. -/
lemma stop_of_taken_nil (h : (takeTouching edits stop).taken = []) :
    (takeTouching edits stop).stop = stop := by
  cases edits with
  | nil => rfl
  | cons e edits =>
    rw [takeTouching] at h ⊢
    split_ifs at h ⊢
    rfl

/-- A choice of the edits of both sides around one end. -/
def Closed (left right : List ContentEdit) (c : Connected) : Prop :=
  Cut left c.left c.leftRest c.stop ∧ Cut right c.right c.rightRest c.stop

lemma connect_closed (left right : List ContentEdit) (stop : Nat) :
    Closed left right (connect left right stop) ∧ stop ≤ (connect left right stop).stop := by
  fun_induction connect left right stop with
  | case1 left right stop l r hnone =>
    have hleft := takeTouching_cut left stop
    have hrt := takeTouching_cut right l.stop
    have hlrest : l.stop = stop := stop_of_taken_nil hnone.1
    have hrrest : r.stop = l.stop := stop_of_taken_nil hnone.2
    rw [show (takeTouching left stop).taken = [] from hnone.1,
      show (takeTouching left stop).stop = r.stop from hrrest.symm] at hleft
    rw [show (takeTouching right l.stop).taken = [] from hnone.2] at hrt
    exact ⟨⟨hleft, hrt⟩, (hrrest.trans hlrest).ge⟩
  | case2 left right stop l r hsome more ih =>
    obtain ⟨⟨hleft, hrt⟩, hstop⟩ := ih
    have hle : l.stop ≤ more.stop := (le_takeTouching_stop right l.stop).trans hstop
    exact ⟨⟨(takeTouching_cut left stop).extend hle hleft, (takeTouching_cut right l.stop).extend hstop hrt⟩,
      (le_takeTouching_stop left stop).trans hle⟩

lemma connect_stop (hstop : P stop) (hleft : ∀ e ∈ left, P e.oldBytes.stop)
    (hrt : ∀ e ∈ right, P e.oldBytes.stop) : P (connect left right stop).stop := by
  fun_induction connect left right stop with
  | case1 left right stop l r hnone => exact takeTouching_stop (takeTouching_stop hstop hleft) hrt
  | case2 left right stop l r hsome more ih =>
    refine ih (takeTouching_stop (takeTouching_stop hstop hleft) hrt) (fun e he => hleft e ?_) fun e
      he => hrt e ?_
    · exact takeTouching_append left stop ▸ mem_append_right _ he
    · exact takeTouching_append right l.stop ▸ mem_append_right _ he

lemma takeTouching_within (h : Cut edits taken rest last) (hstop : stop ≤ last) :
    ∃ more, taken = (takeTouching edits stop).taken ++ more ∧
      Cut (takeTouching edits stop).rest more rest last ∧
      (takeTouching edits stop).stop ≤ last := by
  obtain ⟨rfl, htook, hrest⟩ := h
  induction taken generalizing stop with
  | nil =>
    cases rest with
    | nil => exact ⟨[], rfl, ⟨rfl, htook, hrest⟩, hstop⟩
    | cons e rest =>
      have hlt := hrest e rfl
      rw [nil_append, takeTouching, if_neg (by omega)]
      exact ⟨[], rfl, ⟨rfl, htook, hrest⟩, hstop⟩
  | cons e taken ih =>
    rw [cons_append, takeTouching]
    split_ifs with htou
    · obtain ⟨he, htook⟩ := forall_mem_cons.mp htook
      obtain ⟨more, hmore, hcut⟩ := ih (max_le hstop he) htook
      exact ⟨more, congrArg (e :: ·) hmore, hcut⟩
    · exact ⟨e :: taken, rfl, ⟨rfl, htook, hrest⟩, hstop⟩

/-- Of all choices around an end, the one that is found takes the least. -/
lemma connect_least (left right : List ContentEdit) (stop : Nat) : ∀ c : Connected, Closed left right c →
    stop ≤ c.stop → (connect left right stop).left <+: c.left ∧ (connect left right stop).right <+: c.right ∧
      (connect left right stop).stop ≤ c.stop := by
  fun_induction connect left right stop with
  | case1 left right stop l r hnone =>
    intro c h hstop
    obtain ⟨-, -, -, hlrest⟩ := takeTouching_within h.1 hstop
    obtain ⟨-, -, -, hrrest⟩ := takeTouching_within h.2 hlrest
    exact ⟨ nil_prefix, nil_prefix, hrrest⟩
  | case2 left right stop l r hsome more ih =>
    intro c h hstop
    obtain ⟨moreLeft, hleft, hcut, hlrest⟩ := takeTouching_within h.1 hstop
    obtain ⟨moreRight, hrt, hcut', hrrest⟩ := takeTouching_within h.2 hlrest
    obtain ⟨hl, hr, hlast⟩ := ih ⟨moreLeft, c.leftRest, moreRight, c.rightRest, c.stop⟩ ⟨hcut, hcut'⟩ hrrest
    rw [hleft, hrt]
    exact ⟨(prefix_append_right_inj _).mpr hl, (prefix_append_right_inj _).mpr hr, hlast⟩

lemma connect_swap (left right : List ContentEdit) (stop : Nat) :
    connect right left stop = ⟨(connect left right stop).right, (connect left right stop).rightRest,
      (connect left right stop).left, (connect left right stop).leftRest, (connect left right stop).stop⟩ := by
  obtain ⟨hcl, hstop⟩ := connect_closed left right stop
  obtain ⟨hcl', hstop'⟩ := connect_closed right left stop
  have h := connect_least right left stop ⟨_, _, _, _, _⟩ hcl.symm hstop
  have h' := connect_least left right stop ⟨_, _, _, _, _⟩ hcl'.symm hstop'
  generalize connect left right stop = c at *
  generalize connect right left stop = d at *
  cases d
  dsimp only at *
  obtain ⟨h₁, h₂, h₃⟩ := h
  obtain ⟨k₁, k₂, k₃⟩ := h'
  cases h₁.eq_of_length_le k₂.length_le
  cases h₂.eq_of_length_le k₁.length_le
  cases le_antisymm h₃ k₃
  cases append_cancel_left (hcl'.1.append.trans hcl.2.append.symm)
  cases append_cancel_left (hcl'.2.append.trans hcl.1.append.symm)
  rfl

end Connection

section Regions

variable {edits : List ContentEdit}
variable {bytes : Bytes} {a E S : Nat} {rest : List ContentEdit}
variable {b start : Nat} {new : Lines} {side : Bytes} {e : ContentEdit}

/-- A part of each of the three contents, and what becomes of it. -/
structure Region where
  base : Bytes
  ours : Bytes
  theirs : Bytes
  outcome : ContentHunk

/-- A region is resolved to the text of the side that changed it, or to the text of both; otherwise both
sides changed it, in different ways, and its three texts are kept. -/
def Region.Sound (reg : Region) : Prop :=
  match reg.outcome with
  | .resolved bytes => (reg.theirs = reg.base ∧ bytes = reg.ours) ∨
      (reg.ours = reg.base ∧ bytes = reg.theirs) ∨ (reg.ours = reg.theirs ∧ bytes = reg.ours)
  | .conflict base ours theirs => base = reg.base ∧ ours = reg.ours ∧ theirs = reg.theirs ∧
      reg.ours ≠ reg.theirs ∧ reg.ours ≠ reg.base ∧ reg.theirs ≠ reg.base

def ContentHunk.swap : ContentHunk → ContentHunk
  | .resolved bytes => .resolved bytes
  | .conflict base ours theirs => .conflict base theirs ours

def Region.swap (reg : Region) : Region := ⟨reg.base, reg.theirs, reg.ours, reg.outcome.swap⟩

def hunksOf (hunks : List ContentHunk) (regions : List Region) : List ContentHunk :=
  regions.foldl (fun hunks reg => addHunk hunks reg.outcome) hunks

def Whole (text : Bytes) : Prop := ∀ piece ∈ splitInclusive 10 text, Terminated 10 piece

/-- One of the three contents. -/
inductive Source where
  | base
  | ours
  | theirs

def pick {α : Type} (base ours theirs : α) : Source → α
  | .base => base
  | .ours => ours
  | .theirs => theirs

def Region.text (reg : Region) : Source → Bytes := pick reg.base reg.ours reg.theirs

/-- The texts of each region end with a terminator, unless nothing comes after it. -/
def Joined : List Region → Prop
  | [] => True
  | reg :: rest => ((∀ s, Whole (reg.text s)) ∨ ∀ later ∈ rest, ∀ s, later.text s = []) ∧ Joined rest

/-- Regions that make up the rest of the three contents. -/
structure Partition (texts : Source → Bytes) (pos : Source → Nat) (regions : List Region) : Prop where
  whole : ∀ s, regions.flatMap (·.text s) = segment (texts s) (pos s) (Lines.ofBytes (texts s)).len
  sound : ∀ reg ∈ regions, reg.Sound
  joined : Joined regions
  pieces : ∀ reg ∈ regions, ∀ s, ∀ piece ∈ splitInclusive 10 (reg.text s), piece ∈ splitInclusive 10 (texts s)

/-- What each content has between two positions. -/
def between (texts : Source → Bytes) (pos pos' : Source → Nat) (s : Source) : Bytes :=
  segment (texts s) (pos s) (pos' s)

def Region.ofTexts (text : Source → Bytes) (outcome : ContentHunk) : Region :=
  ⟨text .base, text .ours, text .theirs, outcome⟩

lemma text_ofTexts (text : Source → Bytes) (outcome : ContentHunk) :
    (Region.ofTexts text outcome).text = text :=
  funext (Source.rec rfl rfl rfl)

variable {base ours theirs : Bytes} {X Y Z : Nat} {regions : List Region} {texts : Source → Bytes}
  {pos pos' : Source → Nat}

lemma mem_of_segment {piece : Bytes}
    (h : piece ∈ splitInclusive 10 (segment bytes a b)) : piece ∈ splitInclusive 10 bytes := by
  rw [segment_pieces] at h
  exact mem_of_mem_take (mem_of_mem_drop h)

lemma whole_segment (hb : b < (ofBytes bytes).len) : Whole (segment bytes a b) := by
  intro piece hpc
  rw [segment_pieces] at hpc
  rw [ofBytes_len] at hb
  have hlin : Lined 10 ((splitInclusive 10 bytes).take b ++ (splitInclusive 10 bytes).drop b) := by
    rw [take_append_drop]
    exact lined_splitInclusive 10 bytes
  refine hlin.terminated (fun hnil => ?_) piece (mem_of_mem_drop hpc)
  have := drop_eq_nil_iff.mp hnil
  omega

lemma segment_self : segment bytes a a = [] := by
  rw [ContentDiff.segment, drop_eq_nil_of_le (by simp)]
  rfl

lemma Partition.cons {outcome : ContentHunk} (h : Partition texts pos' regions)
    (hends : (∀ s, Whole (between texts pos pos' s)) ∨ ∀ s, pos' s = (ofBytes (texts s)).len)
    (hle : ∀ s, pos s ≤ pos' s) (hlen : ∀ s, pos' s ≤ (ofBytes (texts s)).len)
    (hsound : (Region.ofTexts (between texts pos pos') outcome).Sound) :
    Partition texts pos (.ofTexts (between texts pos pos') outcome :: regions) := by
  refine ⟨fun s => ?_, forall_mem_cons.mpr ⟨hsound, h.sound⟩, ⟨?_, h.joined⟩,
    forall_mem_cons.mpr ⟨fun s piece => ?_, h.pieces⟩⟩
  · rw [flatMap_cons, h.whole, text_ofTexts, segment_append (hle s) (hlen s)]
    rfl
  · rw [text_ofTexts]
    refine hends.imp_right fun hend later hlat s => ?_
    have hnone := h.whole s
    rw [← hend s, segment_self] at hnone
    exact flatMap_eq_nil_iff.mp hnone later hlat
  · rw [text_ofTexts]
    exact mem_of_segment

lemma Aligned.ends (h : Aligned old new X Y edits) (hstarts : ∀ e ∈ edits, X < e.oldLines.start) :
    (X < old.len ∧ Y < new.len) ∨ (X = old.len ∧ Y = new.len) := by
  cases h with
  | nil _ hx hy => omega
  | @cons _ _ length olds news rest hkeep hx hy hle hle' hrest =>
    have hst : X < olds.start := hstarts _ (.head _)
    have := (hkeep 0 (by omega)).lt
    rw [Lines.length_pieces, Lines.length_pieces] at this
    omega

lemma Partition.same (hle : ∀ s, pos s ≤ pos' s) (hlen : ∀ s, pos' s ≤ (ofBytes (texts s)).len)
    (hsame : ∀ s, between texts pos pos' .base = between texts pos pos' s) (h : Partition texts pos' regions) :
    Partition texts pos (.ofTexts (between texts pos pos') (.resolved (between texts pos pos' .ours)) :: regions) := by
  refine h.cons ?_ hle hlen (.inl ⟨(hsame .theirs).symm, rfl⟩)
  by_cases hmore : ∃ s, pos' s < (ofBytes (texts s)).len
  · -- a content that goes on ends its part with a terminator, and the parts are equal
    obtain ⟨s, hlt⟩ := hmore
    refine .inl fun other => ?_
    rw [← hsame other, hsame s]
    exact whole_segment hlt
  · exact .inr fun s => (hlen s).eq_of_not_lt fun hlt => hmore ⟨s, hlt⟩

lemma head_start (h : Aligned (ofBytes base) (ofBytes ours) X Y edits)
    (hE : E ≤ (ofBytes base).len)
    (hhead : ∀ e ∈ edits.head?, (ofBytes base).offset E < e.oldBytes.start) :
    ∀ e ∈ edits, E < e.oldLines.start := by
  cases h with
  | nil => simp
  | @cons _ _ length olds news rest hkeep hx hy hle hle' hrest =>
    have hlt : E < olds.start := by
      have hbs : (ofBytes base).offset E < (ofBytes base).offset olds.start := hhead _ rfl
      by_contra hge
      have := (offset_le_iff (by omega : olds.start ≤ (ofBytes base).len) hE).mpr (by omega)
      omega
    intro e he
    rcases mem_cons.mp he with rfl | he
    · exact hlt
    · have := (hrest.starts e he).1
      omega

lemma Aligned.suffix (h : Aligned old new X Y (taken ++ rest)) :
    ∃ X' Y', Aligned old new X' Y' rest := by
  induction taken generalizing X Y with
  | nil => exact ⟨X, Y, h⟩
  | cons e taken ih =>
    cases h with
    | cons _ _ _ _ _ hrest => exact ih hrest

lemma first_line (h : Aligned (ofBytes base) (ofBytes side) X Y (e :: edits)) :
    X ≤ e.oldLines.start ∧ e.oldLines.start ≤ (ofBytes base).len ∧
      e.oldBytes.start = (ofBytes base).offset e.oldLines.start ∧
      ∀ other ∈ e :: edits, e.oldLines.start ≤ other.oldLines.start := by
  have hstarts := h.starts
  cases h with
  | cons _ _ _ hle _ hrest =>
    have hend := hrest.le.1
    refine ⟨(hstarts _ mem_cons_self).1, by simp only [edit]; omega, rfl, fun other hoth => ?_⟩
    rcases mem_cons.mp hoth with rfl | hoth
    · exact le_refl _
    · have := (hrest.starts other hoth).1
      simp only [edit]
      omega

lemma start_line (hleft : Aligned (ofBytes base) (ofBytes ours) X Y left)
    (hrt : Aligned (ofBytes base) (ofBytes theirs) X Z right)
    (hst : nextStart left right = some start) :
    ∃ S, X ≤ S ∧ S ≤ (ofBytes base).len ∧ start = (ofBytes base).offset S ∧
      (∀ e ∈ left, S ≤ e.oldLines.start) ∧ ∀ e ∈ right, S ≤ e.oldLines.start := by
  cases left with
  | nil =>
    cases right with
    | nil => cases hst
    | cons r right =>
      cases hst
      obtain ⟨hX, hlen, hbs, hfirst⟩ := first_line hrt
      exact ⟨_, hX, hlen, hbs, by simp, hfirst⟩
  | cons l left =>
    obtain ⟨hX, hlen, hbs, hfirst⟩ := first_line hleft
    cases right with
    | nil =>
      cases hst
      exact ⟨_, hX, hlen, hbs, hfirst, by simp⟩
    | cons r right =>
      cases hst
      obtain ⟨hX', hlen', hbs', hfirst'⟩ := first_line hrt
      rcases le_total l.oldLines.start r.oldLines.start with hle | hle
      · refine ⟨_, hX, hlen, ?_, hfirst, fun e he => le_trans hle (hfirst' e he)⟩
        rw [hbs, hbs', min_eq_left ((offset_le_iff hlen hlen').mpr hle)]
      · refine ⟨_, hX', hlen', ?_, fun e he => le_trans hle (hfirst e he), hfirst'⟩
        rw [hbs, hbs', min_eq_right ((offset_le_iff hlen' hlen).mpr hle)]

/-- The edits of one side around a region, in terms of the lines of the base. -/
structure SideLines (edits taken rest : List ContentEdit) (S E : Nat) : Prop where
  append : taken ++ rest = edits
  start : ∀ e ∈ edits, S ≤ e.oldLines.start
  stop : ∀ e ∈ taken, e.oldLines.stop ≤ E
  rest : ∀ e ∈ rest, E < e.oldLines.start

lemma old_stop {edits : List ContentEdit} (h : Aligned (ofBytes base) (ofBytes ours) X Y edits)
    (he : e ∈ edits) :
    e.oldLines.stop ≤ (ofBytes base).len ∧
      e.oldBytes.stop = (ofBytes base).offset e.oldLines.stop := by
  obtain ⟨-, hstop, -, -, hedit⟩ := h.ranges e he
  exact ⟨hstop, congrArg (·.oldBytes.stop) hedit⟩

lemma sideLines {edits : List ContentEdit} (h : Aligned (ofBytes base) (ofBytes ours) X Y edits)
    (hcut : Cut edits taken rest ((ofBytes base).offset E)) (hE : E ≤ (ofBytes base).len)
    (hst : ∀ e ∈ edits, S ≤ e.oldLines.start) : SideLines edits taken rest S E := by
  obtain ⟨_, _, hsuf⟩ := Aligned.suffix (hcut.append.symm ▸ h)
  refine ⟨hcut.append, hst, fun e he => ?_, head_start hsuf hE hcut.after⟩
  obtain ⟨hlen, hbs⟩ := old_stop h (hcut.append ▸ mem_append_left _ he)
  exact (offset_le_iff hlen hE).mp (hbs ▸ hcut.before e he)

lemma connect_lines
    (hleft : Aligned (ofBytes base) (ofBytes ours) X Y left)
    (hrt : Aligned (ofBytes base) (ofBytes theirs) X Z right) (hst : nextStart left right = some start) :
    ∃ S E, X ≤ S ∧ S ≤ E ∧ E ≤ (ofBytes base).len ∧ start = (ofBytes base).offset S ∧
      (connect left right start).stop = (ofBytes base).offset E ∧
      SideLines left (connect left right start).left (connect left right start).leftRest S E ∧
      SideLines right (connect left right start).right (connect left right start).rightRest S E := by
  obtain ⟨S, hXS, hS, rfl, hlside, hrside⟩ := start_line hleft hrt hst
  obtain ⟨⟨hlef, hrig⟩, hle⟩ := connect_closed left right ((ofBytes base).offset S)
  obtain ⟨E, hE, hstop⟩ := connect_stop (P := fun stop =>
    ∃ E ≤ (ofBytes base).len, stop = (ofBytes base).offset E)
    ⟨S, hS, rfl⟩ (fun e he => ⟨_, old_stop hleft he⟩) fun e he => ⟨_, old_stop hrt he⟩
  rw [hstop] at hle hlef hrig
  exact ⟨S, E, hXS, (offset_le_iff hS hE).mp hle, hE, rfl, hstop, sideLines hleft hlef hE hlside,
    sideLines hrt hrig hE hrside⟩

/-- Edits that account for all lines after a point, none of them empty, and as few edited lines as any. -/
structure Least (base side : Bytes) (X Y : Nat) (edits : List ContentEdit) : Prop where
  aligned : Aligned (ofBytes base) (ofBytes side) X Y edits
  nonempty : ∀ e ∈ edits, e.oldLines.start < e.oldLines.stop ∨ e.newLines.start < e.newLines.stop
  least : ∀ other, Aligned (ofBytes base) (ofBytes side) X Y other → editedLines edits ≤ editedLines other

lemma editedLines_append (edits rest : List ContentEdit) :
    editedLines (edits ++ rest) = editedLines edits + editedLines rest := by
  rw [editedLines, map_append, sum_append]
  rfl

lemma editedLines_pos (h : ∀ e ∈ edits, e.oldLines.start < e.oldLines.stop ∨ e.newLines.start < e.newLines.stop)
    (hne : edits ≠ []) : 0 < editedLines edits := by
  obtain ⟨e, rest, rfl⟩ := exists_cons_of_ne_nil hne
  have hfirst := h e (.head _)
  simp only [editedLines, map_cons, sum_cons, Range.length]
  omega

lemma diagonal_of_segment {Y₁ Y₂ : Nat} (hE : E ≤ (ofBytes base).len) (hY : Y₁ ≤ Y₂)
    (hY₂ : Y₂ ≤ (ofBytes side).len) (hSE : S ≤ E)
    (h : segment base S E = segment side Y₁ Y₂) :
    Y₂ = Y₁ + (E - S) ∧ Diagonal (ofBytes base).pieces (ofBytes side).pieces S Y₁ (E - S) := by
  have hpieces := congrArg (splitInclusive 10) h
  rw [segment_pieces, segment_pieces] at hpieces
  rw [ofBytes_len] at hE hY₂
  have hlen := congrArg length hpieces
  rw [length_drop, length_take, length_drop, length_take] at hlen
  refine ⟨by omega, fun j hj => ?_⟩
  have hline := congrArg (·[j]?) hpieces
  simp only [getElem?_drop, getElem?_take] at hline
  rw [if_pos (by omega), if_pos (by omega), getElem?_eq_getElem (by omega)] at hline
  rw [ofBytes_pieces, ofBytes_pieces]
  exact ⟨_, getElem?_eq_getElem (by omega), hline.symm⟩

/-- What one side has for a region of the base, and for the lines before it. -/
structure SideRegion (base side : Bytes) (taken rest : List ContentEdit) (X S E Y Y₁ Y₂ : Nat) : Prop where
  le_start : Y ≤ Y₁
  le_stop : Y₁ ≤ Y₂
  le_len : Y₁ ≤ (Lines.ofBytes side).len
  before : segment base X S = segment side Y Y₁
  moved : advance side ((Lines.ofBytes side).offset Y) (S - X) = (Lines.ofBytes side).offset Y₁
  least : Least base side E Y₂ rest
  applied : applyFrom base side ((Lines.ofBytes base).offset E) ((Lines.ofBytes base).offset S) ((Lines.ofBytes side).offset Y₁) taken =
    (segment side Y₁ Y₂, (Lines.ofBytes side).offset Y₂)
  unchanged : taken = [] ↔ segment base S E = segment side Y₁ Y₂

lemma SideLines.region {edits : List ContentEdit} (h : SideLines edits taken rest S E)
    (hleast : Least base ours X Y edits) (hXS : X ≤ S) (hSE : S ≤ E)
    (hE : E ≤ (ofBytes base).len) : ∃ Y₁ Y₂, SideRegion base ours taken rest X S E Y Y₁ Y₂ := by
  obtain ⟨rfl, hst, hstop, hrrest⟩ := h
  obtain ⟨hkeep, hnext⟩ := Aligned.advance hleast.aligned hXS (hSE.trans hE) hst
  have hbf := segment_diagonal hkeep
  rw [Nat.add_sub_cancel' hXS] at hbf
  obtain ⟨Y₂, hY₂, hrest, happ, hunc, hback⟩ :=
    applyFrom_spec hnext hSE hE hstop fun e he => (hrrest e he).le
  have hmin : ∀ other, Aligned (ofBytes base) (ofBytes ours) S (Y + (S - X)) other →
      editedLines taken + editedLines rest ≤ editedLines other := by
    intro other hoth
    rw [← editedLines_append]
    exact hleast.least other (Aligned.back hoth hXS hkeep)
  refine ⟨Y + (S - X), Y₂, Nat.le_add_right _ _, hY₂, hnext.le.2, hbf, advance_offset hnext.le.2,
    ⟨hrest, fun e he => hleast.nonempty e (mem_append_right _ he), fun other hoth => ?_⟩, happ,
    hunc, fun hsame => ?_⟩
  · have hle := hmin _ (hback other hoth)
    rw [editedLines_append] at hle
    omega
  · -- lines that are the same need no edits
    obtain ⟨rfl, hdiag⟩ := diagonal_of_segment hE hY₂ hrest.le.2 hSE hsame
    have hle := hmin rest (Aligned.back hrest hSE hdiag)
    by_contra hne
    have hpos := editedLines_pos (fun e he => hleast.nonempty e (mem_append_left _ he)) hne
    omega

end Regions

variable {regions : List Region}

section Combine

variable {base ours theirs : Bytes} {options : ContentOptions}
variable {left right : List ContentEdit}
variable {X Y Z : Nat}

lemma regionHunk_spec (hfav : options.favor = .conflict) (hex : options.whitespace = .exact)
    {reg ourText theirText : Bytes} (hleft : left = [] ↔ reg = ourText)
    (hrt : right = [] ↔ reg = theirText) (hsome : left ≠ [] ∨ right ≠ []) :
    ∃ outcome, Region.Sound ⟨reg, ourText, theirText, outcome⟩ ∧
      regionHunk reg ourText theirText left right options = .ok outcome ∧
      regionHunk reg theirText ourText right left options = .ok outcome.swap := by
  have hequ : ∀ a b : Bytes, equivalent a b options = .ok (decide (a = b)) := by
    intro a b
    unfold equivalent
    by_cases hab : a = b
    · rw [if_pos hab, decide_eq_true hab]
    · rw [if_neg hab, if_pos hex, decide_eq_false hab]
  unfold regionHunk
  by_cases hr : right = []
  · refine ⟨.resolved ourText, .inl ⟨(hrt.mp hr).symm, rfl⟩, by rw [if_pos hr], ?_⟩
    rw [if_neg (hsome.resolve_right (not_not.mpr hr)), if_pos hr]
    rfl
  by_cases hl : left = []
  · refine ⟨.resolved theirText, .inr (.inl ⟨(hleft.mp hl).symm, rfl⟩), by rw [if_neg hr, if_pos hl], ?_⟩
    rw [if_pos hl]
    rfl
  rw [if_neg hr, if_neg hl, if_neg hl, if_neg hr, hequ, hequ]
  by_cases hsame : ourText = theirText
  · refine ⟨.resolved ourText, .inr (.inr ⟨hsame, rfl⟩), ?_, ?_⟩
    · simp [hsame]
    · simp [hsame, ContentHunk.swap]
  · refine ⟨.conflict reg ourText theirText, ⟨rfl, rfl, rfl, hsame, fun h => hl (hleft.mpr h.symm),
      fun h => hr (hrt.mpr h.symm)⟩, ?_, ?_⟩
    · simp [hsame, choose, hfav]
    · simp [Ne.symm hsame, choose, hfav, ContentHunk.swap]

lemma combineFrom_none {cursor oursCursor theirsCursor : Nat} (h : nextStart left right = none) :
    combineFrom base ours theirs options left right cursor oursCursor theirsCursor hunks =
      .ok (append hunks (ours.drop oursCursor)) := by
  rw [combineFrom]
  split
  · rfl
  · rename_i start hst
    rw [h] at hst
    cases hst

lemma nextStart_swap (left right : List ContentEdit) :
    nextStart right left = nextStart left right := by
  cases left with
  | nil => cases right <;> rfl
  | cons l left =>
    cases right with
    | nil => rfl
    | cons r right => rw [nextStart, nextStart, min_comm]

lemma combineFrom_some {left right : List ContentEdit} {c : Connected} {S E Y₁ Y₂ Z₁ Z₂ : Nat}
    (hst : nextStart left right = some ((ofBytes base).offset S))
    (hc : connect left right ((ofBytes base).offset S) = c)
    (hstop : c.stop = (ofBytes base).offset E) (hXS : X ≤ S) (hSE : S ≤ E) (hE : E ≤ (ofBytes base).len)
    (hours : SideRegion base ours c.left c.leftRest X S E Y Y₁ Y₂)
    (htheirs : SideRegion base theirs c.right c.rightRest X S E Z Z₁ Z₂)
    (hunks : List ContentHunk) :
    combineFrom base ours theirs options left right ((ofBytes base).offset X) ((ofBytes ours).offset Y)
        ((ofBytes theirs).offset Z) hunks =
      regionHunk (segment base S E) (segment ours Y₁ Y₂)
          (segment theirs Z₁ Z₂) c.left c.right options >>=
        fun hunk => combineFrom base ours theirs options c.leftRest c.rightRest ((ofBytes base).offset E)
          ((ofBytes ours).offset Y₂) ((ofBytes theirs).offset Z₂)
          (addHunk (append hunks (segment ours Y Y₁)) hunk) := by
  rw [combineFrom]
  split
  · rename_i hnone
    rw [hst] at hnone
    cases hnone
  rename_i found hgot
  rw [hst] at hgot
  cases hgot
  simp only [hc, records_between hXS (hSE.trans hE), hours.moved, htheirs.moved, hstop,
    hours.applied, htheirs.applied,
    of_offsets base hSE hE, of_offsets ours hours.le_start hours.le_len]

lemma hunksOf_cons (hunks : List ContentHunk) (reg : Region) (regions : List Region) :
    hunksOf hunks (reg :: regions) = hunksOf (addHunk hunks reg.outcome) regions := rfl

lemma partition_end (texts : Source → Bytes) :
    Partition texts (fun s => (ofBytes (texts s)).len) [] :=
  ⟨fun _ => segment_self.symm, by simp, trivial, by simp⟩

/-- The walk cuts what remains of the three contents into regions, and exchanging the sides exchanges
the sides of every region. -/
lemma combineFrom_spec (hfav : options.favor = .conflict) (hex : options.whitespace = .exact)
    (hleft : Least base ours X Y left) (hrt : Least base theirs X Z right) :
    ∃ regions, Partition (pick base ours theirs) (pick X Y Z) regions ∧
      (∀ hunks, combineFrom base ours theirs options left right ((ofBytes base).offset X)
        ((ofBytes ours).offset Y) ((ofBytes theirs).offset Z) hunks = .ok (hunksOf hunks regions)) ∧
      ∀ hunks, combineFrom base theirs ours options right left ((ofBytes base).offset X)
        ((ofBytes theirs).offset Z) ((ofBytes ours).offset Y) hunks =
          .ok (hunksOf hunks (regions.map Region.swap)) := by
  obtain ⟨n, hn⟩ : ∃ n, n = left.length + right.length := ⟨_, rfl⟩
  induction n using Nat.strong_induction_on generalizing left right X Y Z with
  | _ n ih =>
    cases hst : nextStart left right with
    | none =>
      obtain ⟨rfl, rfl⟩ : left = [] ∧ right = [] := by
        cases left <;> cases right <;> simp_all [nextStart]
      have hnone : nextStart ([] : List ContentEdit) [] = none := rfl
      -- what remains is the same in all three
      obtain ⟨hours, htheirs⟩ : segment base X (ofBytes base).len =
            segment ours Y (ofBytes ours).len ∧
          segment base X (ofBytes base).len =
            segment theirs Z (ofBytes theirs).len := by
        cases hleft.aligned with
        | nil hkeep hx hy =>
          cases hrt.aligned with
          | nil hkeep' hx' hy' =>
            have hours := segment_diagonal hkeep
            have htheirs := segment_diagonal hkeep'
            rw [hx, hy] at hours
            rw [hx', hy'] at htheirs
            exact ⟨hours, htheirs⟩
      refine ⟨_, (partition_end (pick base ours theirs)).same (Source.rec hleft.aligned.le.1 hleft.aligned.le.2 hrt.aligned.le.2) (fun _ => le_refl _)
        (Source.rec rfl hours htheirs), fun hunks => ?_, fun hunks => ?_⟩
      · rw [combineFrom_none hnone, of_offset_end ours hleft.aligned.le.2]
        rfl
      · rw [combineFrom_none hnone, of_offset_end theirs hrt.aligned.le.2, ← htheirs, hours]
        rfl
    | some start =>
      obtain ⟨S, E, hXS, hSE, hE, rfl, hstop, hlef, hrig⟩ := connect_lines hleft.aligned hrt.aligned hst
      have hsome := connect_nonempty hst
      have hswap := connect_swap left right ((ofBytes base).offset S)
      generalize hc : connect left right ((ofBytes base).offset S) = c at hstop hlef hrig hsome hswap
      obtain ⟨Y₁, Y₂, hours⟩ := hlef.region hleft hXS hSE hE
      obtain ⟨Z₁, Z₂, htheirs⟩ := hrig.region hrt hXS hSE hE
      obtain ⟨outcome, hsound, hhunk, hhunk'⟩ :=
        regionHunk_spec hfav hex hours.unchanged htheirs.unchanged hsome
      have hsho : c.leftRest.length + c.rightRest.length < n := by
        have hlen := congrArg length hlef.append
        have hlen' := congrArg length hrig.append
        rw [length_append] at hlen hlen'
        rcases hsome with hsome | hsome
        all_goals have := length_pos_of_ne_nil hsome; omega
      obtain ⟨regions, hpar, hrest, hrest'⟩ := ih _ hsho hours.least htheirs.least rfl
      have hends' := Aligned.ends htheirs.least.aligned hrig.rest
      have hends : (∀ s, Whole (between (pick base ours theirs) (pick S Y₁ Z₁) (pick E Y₂ Z₂) s)) ∨
          ∀ s, pick E Y₂ Z₂ s = (ofBytes (pick base ours theirs s)).len := by
        rcases Aligned.ends hours.least.aligned hlef.rest with ⟨hbase, hours⟩ | ⟨hbase, hours⟩
        · have htheirs := (hends'.resolve_right fun hend => by omega).2
          exact .inl (Source.rec (whole_segment hbase) (whole_segment hours) (whole_segment htheirs))
        · exact .inr (Source.rec hbase hours (hends'.resolve_left fun hmore => by omega).2)
      have hreg := hpar.cons hends (Source.rec hSE hours.le_stop htheirs.le_stop)
        (Source.rec hE hours.least.aligned.le.2 htheirs.least.aligned.le.2) hsound
      refine ⟨_, hreg.same (Source.rec hXS hours.le_start htheirs.le_start) (Source.rec (hSE.trans hE) hours.le_len htheirs.le_len)
        (Source.rec rfl hours.before htheirs.before), fun hunks => ?_, fun hunks => ?_⟩
      · rw [combineFrom_some hst hc hstop hXS hSE hE hours htheirs, hhunk]
        exact hrest _
      · rw [combineFrom_some ((nextStart_swap left right).trans hst) hswap hstop hXS hSE hE htheirs hours, hhunk', ← htheirs.before,
          hours.before]
        exact hrest' _

end Combine

section Output

variable {base ours theirs : Bytes}
variable {texts : List Bytes}
variable {α β : Type} {R : α → β → Prop} {l : List α} {a : α} {m : List β}

lemma append_swap (hunks : List ContentHunk) (bytes : Bytes) :
    append (hunks.map ContentHunk.swap) bytes = (append hunks bytes).map ContentHunk.swap := by
  unfold append
  split_ifs with hemp
  · rfl
  rw [getLast?_map]
  cases hlast : hunks.getLast? with
  | none => simp [ContentHunk.swap]
  | some last =>
    cases last with
    | resolved prev => simp [ContentHunk.swap, map_dropLast]
    | conflict => simp [ContentHunk.swap]

lemma addHunk_swap (hunks : List ContentHunk) (hunk : ContentHunk) :
    addHunk (hunks.map ContentHunk.swap) hunk.swap = (addHunk hunks hunk).map ContentHunk.swap := by
  cases hunk with
  | resolved bytes => exact append_swap hunks bytes
  | conflict => simp [addHunk, ContentHunk.swap]

lemma hunksOf_swap (hunks : List ContentHunk) (regions : List Region) :
    hunksOf (hunks.map ContentHunk.swap) (regions.map Region.swap) =
      (hunksOf hunks regions).map ContentHunk.swap := by
  induction regions generalizing hunks with
  | nil => rfl
  | cons reg regions ih =>
    rw [map_cons, hunksOf_cons, hunksOf_cons, ← ih, ← addHunk_swap]
    rfl

/-- A text that is taken for a hunk: any of those of a conflict. -/
def Selects : ContentHunk → Bytes → Prop
  | .resolved bytes, text => text = bytes
  | .conflict base ours theirs, text => text = base ∨ text = ours ∨ text = theirs

lemma forall₂_concat (h : List.Forall₂ R (l ++ [a]) m) :
    ∃ m' b, m = m' ++ [b] ∧ List.Forall₂ R l m' ∧ R a b := by
  induction l generalizing m with
  | nil =>
    cases h with
    | cons hab hrest =>
      cases hrest
      exact ⟨[], _, rfl, .nil, hab⟩
  | cons first l ih =>
    cases h with
    | @cons _ b _ m hfirst hrest =>
      obtain ⟨m', last, rfl, hm', hlast⟩ := ih hrest
      exact ⟨b :: m', last, rfl, .cons hfirst hm', hlast⟩

lemma forall₂_snoc {b : β} (h : List.Forall₂ R l m)
    (hab : R a b) : List.Forall₂ R (l ++ [a]) (m ++ [b]) := rel_append h (.cons hab .nil)

lemma addHunk_selects {hunk : ContentHunk} (h : List.Forall₂ Selects (addHunk hunks hunk) texts) :
    ∃ pre text, List.Forall₂ Selects hunks pre ∧ Selects hunk text ∧
      texts.flatten = pre.flatten ++ text := by
  have hadd : ∀ {hunk : ContentHunk}, List.Forall₂ Selects (hunks ++ [hunk]) texts → ∃ pre text,
      List.Forall₂ Selects hunks pre ∧ Selects hunk text ∧ texts.flatten = pre.flatten ++ text := by
    intro hunk h
    obtain ⟨pre, text, rfl, hbf, htext⟩ := forall₂_concat h
    exact ⟨pre, text, hbf, htext, by simp⟩
  cases hunk with
  | conflict base ours theirs => exact hadd h
  | resolved bytes =>
    simp only [addHunk, append] at h
    split_ifs at h with hemp
    · exact ⟨texts, [], h, hemp.symm, by simp⟩
    split at h
    · rename_i prev hlast
      obtain ⟨init, rfl⟩ := getLast?_eq_some_iff.mp hlast
      rw [dropLast_concat] at h
      obtain ⟨pre, text, rfl, hbf, htext⟩ := forall₂_concat h
      refine ⟨pre ++ [prev], bytes, forall₂_snoc hbf rfl, rfl, ?_⟩
      rw [show text = prev ++ bytes from htext]
      simp
    · exact hadd h

lemma hunksOf_selects (h : List.Forall₂ Selects (hunksOf hunks regions) texts) :
    ∃ pre after, List.Forall₂ Selects hunks pre ∧ List.Forall₂ (Selects ·.outcome ·) regions after ∧
      texts.flatten = pre.flatten ++ after.flatten := by
  induction regions generalizing hunks with
  | nil => exact ⟨texts, [], h, .nil, by simp⟩
  | cons reg regions ih =>
    obtain ⟨pre, after, hbf, haf, htex⟩ := ih h
    obtain ⟨first, text, hfirst, htext, hcut⟩ := addHunk_selects hbf
    refine ⟨first, text :: after, hfirst, .cons htext haf, ?_⟩
    rw [htex, hcut, flatten_cons, append_assoc]

lemma Region.Sound.selects {reg : Region} (h : reg.Sound) {text : Bytes}
    (hsel : Selects reg.outcome text) : ∃ s, text = reg.text s := by
  unfold Region.Sound at h
  cases hcase : reg.outcome with
  | resolved bytes =>
    simp only [hcase] at h hsel
    rw [show text = bytes from hsel]
    rcases h with ⟨-, rfl⟩ | ⟨-, rfl⟩ | ⟨-, rfl⟩
    · exact ⟨.ours, rfl⟩
    · exact ⟨.theirs, rfl⟩
    · exact ⟨.ours, rfl⟩
  | conflict base ours theirs =>
    simp only [hcase] at h hsel
    obtain ⟨rfl, rfl, rfl, -⟩ := h
    rcases hsel with rfl | rfl | rfl
    · exact ⟨.base, rfl⟩
    · exact ⟨.ours, rfl⟩
    · exact ⟨.theirs, rfl⟩

/-- Whatever texts are taken for the regions, their lines are lines of the contents. -/
lemma lines_of_regions {contents : Source → Bytes}
    (htex : List.Forall₂ (fun reg text => ∃ s, text = reg.text s) regions texts)
    (hjoi : Joined regions)
    (hpie : ∀ reg ∈ regions, ∀ s, ∀ piece ∈ splitInclusive 10 (reg.text s), piece ∈ splitInclusive 10 (contents s)) :
    ∃ pcs, Lined 10 pcs ∧ pcs.flatten = texts.flatten ∧ ∀ piece ∈ pcs, ∃ s, piece ∈ splitInclusive 10 (contents s) := by
  induction htex with
  | nil => exact ⟨[], trivial, rfl, by simp⟩
  | @cons reg text regions texts htext htex ih =>
    obtain ⟨hends, hjoi⟩ := hjoi
    obtain ⟨hfirst, hpie⟩ := forall_mem_cons.mp hpie
    obtain ⟨pcs, hlin, hflat, hmem⟩ := ih hjoi hpie
    obtain ⟨s, rfl⟩ := htext
    refine ⟨splitInclusive 10 (reg.text s) ++ pcs, ?_,
      by rw [flatten_append, flatten_splitInclusive, hflat]; rfl,
      forall_mem_append.mpr ⟨fun piece hpc => ⟨s, hfirst s piece hpc⟩, hmem⟩⟩
    rcases hends with hwho | hlast
    · exact hlin.append (hwho s)
    -- nothing comes after the region, so an unterminated line may end it
    have hnone : texts.flatten = [] := by
      refine flatten_eq_nil_iff.mpr fun later hlat => ?_
      obtain ⟨other, hoth, s, rfl⟩ := forall₂_mem_left htex.flip hlat
      exact hlast other hoth s
    have hpie' : pcs = [] := by
      cases pcs with
      | nil => rfl
      | cons first pcs =>
        rw [hnone] at hflat
        exact absurd (flatten_eq_nil_iff.mp hflat first (.head _)) (hlin.ne_nil first (.head _))
    rw [hpie', append_nil]
    exact lined_splitInclusive 10 (reg.text s)

end Output

section Merge

variable {base ours theirs : Bytes} {mode : BinaryMode} {lim : DiffLimits}

lemma compare_exact {side : Bytes} {favor : Favor}
    (htext : (Options.mk mode true).isBinary base side = false) (hlim : needed base side ≤ lim) :
    ∃ edits, compare base side ⟨mode, favor, .exact, lim⟩ = .ok (edits, false) ∧
      (base ≠ side → edits ≠ []) ∧ (base ≠ side → Least base side 0 0 edits) := by
  obtain ⟨hsame, -, hdif⟩ := @diffWithOptions_eq base side ⟨mode, true⟩ lim hlim
  unfold compare
  rw [if_pos rfl, diff]
  by_cases heq : base = side
  · exact ⟨[], by rw [hsame heq]; rfl, fun h => absurd heq h, fun h => absurd heq h⟩
  obtain ⟨edits, hedi, hali, hsho⟩ := hdif heq htext
  refine ⟨edits, by rw [hedi]; rfl, fun _ hnone => heq ?_, fun _ => ⟨hali, hsho.separated.nonempty, fun _ => hsho.le_aligned⟩⟩
  have happ := hsho.applied
  rw [hnone, ContentDiff.applyFrom, drop_zero] at happ
  exact happ

/-- The regions of a merge: they make up the three contents, each is sound, and the hunks are theirs. -/
def Regions (base ours theirs : Bytes) (hunks : List ContentHunk) (regions : List Region) : Prop :=
  regions.flatMap Region.base = base ∧ regions.flatMap Region.ours = ours ∧ regions.flatMap Region.theirs = theirs ∧
    (∀ reg ∈ regions, reg.Sound) ∧ (hunks = hunksOf [] regions ∨ ∃ reg, regions = [reg] ∧ hunks = [reg.outcome])

/-- Every line of an output, whatever text is taken for each conflict, is a line of a content. -/
def OutputLines (base ours theirs : Bytes) (hunks : List ContentHunk) : Prop :=
  ∀ texts, List.Forall₂ Selects hunks texts → ∀ line ∈ splitInclusive 10 texts.flatten,
    line ∈ splitInclusive 10 base ∨ line ∈ splitInclusive 10 ours ∨ line ∈ splitInclusive 10 theirs

lemma whole_merge {bytes : Bytes} (hsound : Region.Sound ⟨base, ours, theirs, .resolved bytes⟩)
    (hbs : bytes = ours ∨ bytes = theirs) :
    (∃ regions, Regions base ours theirs [.resolved bytes] regions) ∧
      OutputLines base ours theirs [.resolved bytes] := by
  refine ⟨⟨[⟨base, ours, theirs, .resolved bytes⟩],
    by simp, by simp, by simp, by simpa using hsound, .inr ⟨_, rfl, rfl⟩⟩, ?_⟩
  intro texts htex line hline
  cases htex with
  | cons htext hrest =>
    cases hrest
    rw [show _ = bytes from htext, flatten_cons, flatten_nil, append_nil] at hline
    rcases hbs with rfl | rfl
    · exact .inr (.inl hline)
    · exact .inr (.inr hline)

lemma combine_merge (hfav : options.favor = .conflict) (hex : options.whitespace = .exact)
    (hleft : Least base ours 0 0 left) (hrt : Least base theirs 0 0 right) :
    ∃ hunks, combine base ours theirs left right options = .ok ⟨hunks, false⟩ ∧
      combine base theirs ours right left options = .ok ⟨hunks.map ContentHunk.swap, false⟩ ∧
      (∃ regions, Regions base ours theirs hunks regions) ∧ OutputLines base ours theirs hunks := by
  obtain ⟨regions, hpar, hrun, hrun'⟩ := combineFrom_spec hfav hex hleft hrt
  have hall : ∀ bytes : Bytes, segment bytes 0 (ofBytes bytes).len = bytes := by
    intro bytes
    rw [← of_offset_end bytes (Nat.zero_le _)]
    rfl
  refine ⟨hunksOf [] regions, ?_, ?_, ⟨regions, (hpar.whole .base).trans (hall base),
    (hpar.whole .ours).trans (hall ours),
    (hpar.whole .theirs).trans (hall theirs), hpar.sound, .inl rfl⟩, ?_⟩
  · exact bind_ok.mpr ⟨_, hrun [], rfl⟩
  · refine bind_ok.mpr ⟨_, hrun' [], ?_⟩
    rw [← hunksOf_swap]
    rfl
  · intro texts htex line hline
    obtain ⟨before, after, hbf, haf, hflat⟩ := hunksOf_selects htex
    cases hbf
    have htook : List.Forall₂ (fun reg text => ∃ s, text = Region.text reg s) regions after := by
      refine forall₂_iff_get.mpr ⟨haf.length_eq, fun i hi hi' => ?_⟩
      have hsel := (forall₂_iff_get.mp haf).2 i hi hi'
      exact (hpar.sound _ (get_mem _ _)).selects hsel
    obtain ⟨pieces, hlin, hpie, hmem⟩ := lines_of_regions htook hpar.joined hpar.pieces
    rw [hflat, flatten_nil, nil_append, ← hpie, splitInclusive_flatten hlin] at hline
    obtain ⟨s, hs⟩ := hmem line hline
    cases s with
    | base => exact .inl hs
    | ours => exact .inr (.inl hs)
    | theirs => exact .inr (.inr hs)

lemma contentWith_eq (hleft : compare base ours options = .ok (left, false))
    (hrt : compare base theirs options = .ok (right, false)) :
    contentWith base ours theirs options =
      if ours = theirs ∨ base = theirs then .ok ⟨[.resolved ours], false⟩
      else if base = ours then .ok ⟨[.resolved theirs], false⟩
      else if left = [] then .ok ⟨[.resolved theirs], false⟩
      else if right = [] then .ok ⟨[.resolved ours], false⟩
      else combine base ours theirs left right options := by
  unfold contentWith
  rw [hleft, hrt]
  rfl

/-- With sufficient limits, texts are merged region by region: the regions make up the three texts, each
is resolved soundly or keeps its three texts, exchanging the sides exchanges the conflicts, and no line
of the output mixes lines. -/
theorem contentWith_regions (base ours theirs : Bytes) (mode : BinaryMode)
    (hours : (Options.mk mode true).isBinary base ours = false)
    (htheirs : (Options.mk mode true).isBinary base theirs = false) :
    ∃ need : DiffLimits, ∀ limits, need ≤ limits →
      ∃ hunks, contentWith base ours theirs ⟨mode, .conflict, .exact, limits⟩ = .ok ⟨hunks, false⟩ ∧
        contentWith base theirs ours ⟨mode, .conflict, .exact, limits⟩ = .ok ⟨hunks.map ContentHunk.swap, false⟩ ∧
        (∃ regions, Regions base ours theirs hunks regions) ∧ OutputLines base ours theirs hunks := by
  refine ⟨⟨max (needed base ours).maxInputBytes (needed base theirs).maxInputBytes,
    max (needed base ours).maxLines (needed base theirs).maxLines,
    max (needed base ours).maxTrace (needed base theirs).maxTrace⟩, fun limits hlim => ?_⟩
  obtain ⟨⟨hbs, hbs'⟩, ⟨hlines, hlines'⟩, htrace, htrace'⟩ :=
    And.imp max_le_iff.mp (And.imp max_le_iff.mp max_le_iff.mp) hlim
  obtain ⟨left, hleft, hlef, hlside⟩ := @compare_exact base mode limits ours .conflict hours ⟨hbs,
    hlines, htrace⟩
  obtain ⟨right, hrt, hrig, hrside⟩ := @compare_exact base mode limits theirs .conflict htheirs
    ⟨hbs', hlines', htrace'⟩
  rw [contentWith_eq hleft hrt, contentWith_eq hrt hleft]
  by_cases hsame : ours = theirs
  · subst hsame
    rw [if_pos (.inl rfl)]
    exact ⟨_, rfl, by rw [if_pos (.inl rfl)]; rfl, whole_merge (.inr (.inr ⟨rfl, rfl⟩)) (.inl rfl)⟩
  by_cases hthe : base = theirs
  · subst hthe
    rw [if_pos (.inr rfl), if_neg (by rintro (h | h) <;> exact hsame h.symm), if_pos rfl]
    exact ⟨_, rfl, rfl, whole_merge (.inl ⟨rfl, rfl⟩) (.inl rfl)⟩
  by_cases hour : base = ours
  · subst hour
    rw [if_neg (by rintro (h | h) <;> exact hsame h), if_pos rfl, if_pos (.inr rfl)]
    exact ⟨_, rfl, rfl, whole_merge (.inr (.inl ⟨rfl, rfl⟩)) (.inr rfl)⟩
  rw [if_neg (by rintro (h | h) <;> contradiction), if_neg hour, if_neg (hlef hour),
    if_neg (hrig hthe), if_neg (by rintro (h | h); exacts [hsame h.symm, hour h]), if_neg hthe,
    if_neg (hrig hthe), if_neg (hlef hour)]
  exact combine_merge rfl rfl (hlside hour) (hrside hthe)

theorem contentWith_regions_sample :
    (Options.mk .auto true).isBinary [97, 10, 98, 10, 99] [120, 10, 98, 10, 99] = false ∧
    (Options.mk .auto true).isBinary [97, 10, 98, 10, 99] [97, 10, 98, 10, 121] = false ∧
    ∃ need : DiffLimits, ∀ limits, need ≤ limits →
      ∃ hunks, contentWith [97, 10, 98, 10, 99] [120, 10, 98, 10, 99] [97, 10, 98, 10, 121]
          ⟨.auto, .conflict, .exact, limits⟩ = .ok ⟨hunks, false⟩ ∧
        ∃ regions, Regions [97, 10, 98, 10, 99] [120, 10, 98, 10, 99] [97, 10, 98, 10, 121] hunks regions := by
  refine ⟨by decide, by decide, ?_⟩
  obtain ⟨need, hneed⟩ := contentWith_regions [97, 10, 98, 10, 99] [120, 10, 98, 10, 99]
    [97, 10, 98, 10, 121] .auto
    (by decide) (by decide)
  refine ⟨need, fun limits hlim => ?_⟩
  obtain ⟨hunks, hmerge, -, hreg, -⟩ := hneed limits hlim
  exact ⟨hunks, hmerge, hreg⟩

end Merge

end Girt.Merge
