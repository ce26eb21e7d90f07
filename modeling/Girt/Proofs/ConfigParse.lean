import Mathlib.Data.List.TakeWhile
import Girt.Config.Document

/-!
# What the parser of configuration files looks at

Each function of the parser depends on the symbols it takes and on the byte after them.
-/

namespace Girt.Proofs

open ByteLib LineEnds Girt.Config List
open Or (inl inr)
open LineEnds.Symbol (byte)

variable {b : UInt8} {found : SectionName}
variable {c : List Symbol}

section Scanning

variable {p : UInt8 → Bool} {rest rest' c : List Symbol}

@[simp] lemma peek_cons (s : Symbol) (rest : List Symbol) : peek (s :: rest) = some s.byte := rfl

lemma peek_append (h : peek rest' = peek rest) (c : List Symbol) :
    peek (c ++ rest') = peek (c ++ rest) := by
  cases c with
  | nil => exact h
  | cons s c => rfl

lemma peek_eq_some (h : peek rest = some b) : ∃ s tail, rest = s :: tail ∧ s.byte = b := by
  cases rest with
  | nil => cases h
  | cons s tail =>
    cases h
    exact ⟨s, tail, rfl, rfl⟩

lemma peek_eq_none (h : peek rest = none) : rest = [] := by
  cases rest with
  | nil => rfl
  | cons s tail => cases h

lemma skipWhile_append (hc : ∀ s ∈ c, p s.byte) (hrest : ∀ b ∈ peek rest, p b = false) :
    skipWhile p (c ++ rest) = rest ∧ takenWhile p (c ++ rest) = c.map byte := by
  have hdrop : rest.dropWhile (p ·.byte) = rest := by
    cases rest with
    | nil => rfl
    | cons s rest => exact dropWhile_cons_of_neg (by simp [hrest s.byte rfl])
  have htake : rest.takeWhile (p ·.byte) = [] := by
    cases rest with
    | nil => rfl
    | cons s rest => exact takeWhile_cons_of_neg (by simp [hrest s.byte rfl])
  constructor
  · rw [skipWhile, dropWhile_append_of_pos hc, hdrop]
  · rw [takenWhile, takeWhile_append_of_pos hc, htake, append_nil]

lemma skipWhile_split (p : UInt8 → Bool) (rest : List Symbol) : ∃ c, rest = c ++ skipWhile p rest ∧
    (∀ s ∈ c, p s.byte) ∧ ∀ b ∈ peek (skipWhile p rest), p b = false := by
  refine ⟨rest.takeWhile (p ·.byte), takeWhile_append_dropWhile.symm, ?_, ?_⟩
  · intro s hs
    exact mem_takeWhile_imp (p := fun s : Symbol => p s.byte) hs
  intro b hb
  obtain ⟨s, tail, hskip, rfl⟩ := peek_eq_some hb
  have hhead := head?_dropWhile_not (fun s : Symbol => p s.byte) rest
  rw [skipWhile] at hskip
  rw [hskip] at hhead
  exact hhead

abbrev Blanks (c : List Symbol) : Prop := ∀ s ∈ c, isBlank s.byte

lemma space_split (rest : List Symbol) : ∃ c, rest = c ++ space rest ∧ Blanks c ∧
    ∀ b ∈ peek (space rest), isBlank b = false :=
  skipWhile_split isBlank rest

lemma space_append (hc : Blanks c) (hrest : ∀ b ∈ peek rest, isBlank b = false) :
    space (c ++ rest) = rest :=
  (skipWhile_append hc hrest).1

lemma space_append_space (hc : Blanks c) (rest : List Symbol) : space (c ++ rest) = space rest := by
  rw [space, skipWhile, dropWhile_append_of_pos hc]
  rfl

lemma space_of_cons {s : Symbol} {tail : List Symbol} (h : space rest = s :: tail)
    (c : List Symbol) : space (rest ++ c) = s :: (tail ++ c) := by
  obtain ⟨blanks, hcut, hgap, hstop⟩ := space_split rest
  rw [h] at hcut hstop
  rw [hcut, append_assoc]
  exact space_append hgap hstop

lemma space_space (rest : List Symbol) : space (space rest) = space rest := by
  obtain ⟨c, -, -, hstop⟩ := space_split rest
  exact @space_append (space rest) [] (by simp [Blanks]) hstop

lemma comment_split (rest : List Symbol) : ∃ c, rest = c ++ comment rest ∧ (∀ s ∈ c, s.byte ≠ lf) ∧
    ∀ b ∈ peek (comment rest), b = lf := by
  obtain ⟨c, hcut, hc, hstop⟩ := skipWhile_split (· ≠ lf) rest
  refine ⟨c, hcut, fun s hs => by simpa using hc s hs, fun b hb => by simpa using hstop b hb⟩

lemma comment_append (hc : ∀ s ∈ c, s.byte ≠ lf) (hrest : ∀ b ∈ peek rest, b = lf) :
    comment (c ++ rest) = rest := by
  refine (skipWhile_append (p := fun b => b ≠ lf) ?_ ?_).1
  · intro s hs
    simpa using hc s hs
  · intro b hb
    simpa using hrest b hb

end Scanning

/-- Symbols without a line end. -/
def OnLine (c : List Symbol) : Prop := ∀ s ∈ c, s.byte ≠ lf

lemma OnLine.append {d : List Symbol} (hc : OnLine c) (hd : OnLine d) : OnLine (c ++ d) :=
  forall_mem_append.mpr ⟨hc, hd⟩

lemma OnLine.cons {s : Symbol} (hs : s.byte ≠ lf) (hc : OnLine c) : OnLine (s :: c) :=
  forall_mem_cons.mpr ⟨hs, hc⟩

lemma onLine_of_accepted {p : UInt8 → Bool} (hp : p lf = false) (hc : ∀ s ∈ c, p s.byte) :
    OnLine c := by
  intro s hs hbyte
  have hacc := hc s hs
  rw [hbyte, hp] at hacc
  cases hacc

/-- What a reader finds depends on the symbols it takes and on the byte after them, and it takes no
line end. -/
def Local {α : Type} (f : List Symbol → Except Failure (α × List Symbol)) : Prop :=
  ∀ rest a after, f rest = .ok (a, after) →
    ∃ c, rest = c ++ after ∧ OnLine c ∧ ∀ after', peek after' = peek after → f (c ++ after') = .ok (a, after')

section Headers

lemma local_skipWhile {p : UInt8 → Bool} (hp : p lf = false) {α : Type} (a : Bytes → α) :
    Local (fun rest => .ok (a (takenWhile p rest), skipWhile p rest)) := by
  rintro rest - - ⟨⟩
  obtain ⟨c, hcut, hc, hstop⟩ := skipWhile_split p rest
  refine ⟨c, hcut, onLine_of_accepted hp hc, fun after' hpeek => ?_⟩
  have htook : takenWhile p rest = c.map byte := by
    conv_lhs => rw [hcut]
    exact (skipWhile_append hc hstop).2
  have haf := @skipWhile_append p after' c hc (by rw [hpeek]; exact hstop)
  simp only [haf.1, haf.2, htook]

lemma local_name (isVariable : Bool) : Local (name isVariable) := by
  intro rest bs after h
  simp only [name, bind_ok, reject_ok] at h
  obtain ⟨_, hfirst, _, htook, h⟩ := h
  cases h
  obtain ⟨c, hcut, hline, hc⟩ := local_skipWhile (show isNameByte lf = false by decide) id rest _ _ rfl
  refine ⟨c, hcut, hline, fun after' hpeek => ?_⟩
  have hnew := Except.ok.inj (hc after' hpeek)
  rw [Prod.mk.injEq] at hnew
  have hpeek' : peek (c ++ after') = peek rest := by
    conv_rhs => rw [hcut]
    exact peek_append hpeek c
  simp only [name, bind_ok, reject_ok]
  refine ⟨(), ?_, (), ?_, ?_⟩
  · rw [hpeek']
    exact hfirst
  · rw [show takenWhile isNameByte (c ++ after') = takenWhile isNameByte rest from hnew.1]
    exact htook
  · rw [hnew.2]
    exact congrArg (fun taken => Except.ok (taken, after')) hnew.1

lemma quotedSubsection_local {rest after : List Symbol} {read bs : Bytes}
    (h : quotedSubsection rest read = .ok (bs, after)) :
    ∃ c, rest = c ++ after ∧ OnLine c ∧
      ∀ after', quotedSubsection (c ++ after') read = .ok (bs, after') := by
  fun_induction quotedSubsection rest read with
  | case1 => cases h
  | case2 s rest read hquo =>
    cases h
    refine ⟨[s], rfl, OnLine.cons (by rw [hquo]; decide) (fun _ ht => absurd ht not_mem_nil),
      fun after' => ?_⟩
    rw [singleton_append, quotedSubsection.eq_def]
    simp only [if_pos hquo]
  | case3 | case4 => cases h
  | case5 s read hquo hesc t rest hpla ih =>
    obtain ⟨c, rfl, hline, hc⟩ := ih h
    have ht : t.byte ≠ lf := fun ht => hpla (inl ht)
    refine ⟨s :: t :: c, rfl, OnLine.cons (by rw [hesc]; decide) (OnLine.cons ht hline), fun after' => ?_⟩
    rw [cons_append, cons_append, quotedSubsection.eq_def]
    simp only [if_neg hquo, if_pos hesc, if_neg hpla]
    exact hc after'
  | case6 => cases h
  | case7 s rest read hquo hesc hpla ih =>
    obtain ⟨c, rfl, hline, hc⟩ := ih h
    refine ⟨s :: c, rfl, OnLine.cons (fun hs => hpla (inl hs)) hline, fun after' => ?_⟩
    rw [cons_append, quotedSubsection.eq_def]
    simp only [if_neg hquo, if_neg hesc, if_neg hpla]
    exact hc after'

lemma local_dottedSubsection : Local (fun rest => .ok (dottedSubsection rest)) := by
  intro rest dotted after h
  cases rest with
  | nil =>
    cases h
    exact ⟨[], rfl, fun _ hs => absurd hs not_mem_nil, fun after' hpeek => by rw [peek_eq_none hpeek]; rfl⟩
  | cons s rest =>
    simp only [dottedSubsection] at h
    split_ifs at h with hdot
    · cases h
      obtain ⟨c, hcut, hline, hc⟩ := @local_skipWhile (fun b => isNameByte b || b = 46) (by decide) _
        (fun taken => some (taken.map toLower)) rest _ _ rfl
      refine ⟨s :: c, by rw [cons_append, ← hcut], OnLine.cons (by rw [hdot]; decide) hline, fun after' hpeek => ?_⟩
      simp only [cons_append, dottedSubsection, if_pos hdot]
      exact hc after' hpeek
    · cases h
      refine ⟨[], rfl, fun _ hs => absurd hs not_mem_nil, fun after' hpeek => ?_⟩
      obtain ⟨s', tail, rfl, hbyte⟩ := peek_eq_some (hpeek.trans (peek_cons s rest))
      simp [dottedSubsection, hbyte, if_neg hdot]

lemma local_subsection : Local subsection := by
  intro rest found after h
  obtain ⟨c, hcut, hline, hc⟩ := local_dottedSubsection rest (dottedSubsection rest).1
    (dottedSubsection rest).2 rfl
  obtain ⟨blanks, hsp, hgap, hstop⟩ := space_split (dottedSubsection rest).2
  have hbla : isBlank lf = false := by decide
  simp only [subsection] at h
  split_ifs at h with hquo
  · simp only [bind_ok, reject_ok] at h
    obtain ⟨_, hsep, ⟨value, middle⟩, hval, h⟩ := h
    cases h
    obtain ⟨s, tail, htail, hs⟩ := peek_eq_some hquo
    rw [htail, tail_cons] at hval
    obtain ⟨d, rfl, hdli, hd⟩ := quotedSubsection_local hval
    obtain ⟨blanks', hsp', hgap', hstop'⟩ := space_split middle
    have hrest : rest = c ++ blanks ++ s :: d ++ blanks' ++ space middle := by
      conv_lhs => rw [hcut, hsp, htail, hsp']
      simp
    have hqtL : OnLine (s :: d) := OnLine.cons (by rw [hs]; decide) hdli
    refine ⟨_, hrest, ((hline.append (onLine_of_accepted hbla hgap)).append hqtL).append
      (onLine_of_accepted hbla hgap'), fun after' hpeek => ?_⟩
    have hpee : peek (blanks ++ s :: (d ++ (blanks' ++ after'))) = peek (dottedSubsection rest).2 := by
      rw [hsp, htail]
      exact peek_append (by simp) blanks
    have hdot := Except.ok.inj (hc _ hpee)
    have hform : c ++ blanks ++ s :: d ++ blanks' ++ after' = c ++
        (blanks ++ s :: (d ++ (blanks' ++ after'))) := by simp
    have hspa : space (blanks ++ s :: (d ++ (blanks' ++ after'))) = s :: (d ++ (blanks' ++ after')) :=
      space_append hgap (by rintro b ⟨⟩; exact hstop s.byte (by rw [htail]; rfl))
    simp only [subsection, hform, hdot, hspa, peek_cons, hs, if_true, tail_cons, bind_ok, reject_ok]
    refine ⟨(), ?_, (value, blanks' ++ after'), hd _, ?_⟩
    · rw [hpee]
      exact hsep
    · rw [space_append hgap' (by rw [hpeek]; exact hstop')]
      rfl
  · cases h
    refine ⟨c ++ blanks, ?_, hline.append (onLine_of_accepted hbla hgap), fun after' hpeek => ?_⟩
    · conv_lhs => rw [hcut, hsp]
      exact (append_assoc ..).symm
    have hpee : peek (blanks ++ after') = peek (dottedSubsection rest).2 := by
      conv_rhs => rw [hsp]
      exact peek_append hpeek blanks
    have hdot := Except.ok.inj (hc _ hpee)
    have hspa : space (blanks ++ after') = after' := space_append hgap (by rw [hpeek]; exact hstop)
    rw [append_assoc]
    simp only [subsection, hdot, hspa, hpeek, if_neg hquo]

lemma header_local {rest after : List Symbol} (h : header rest = .ok (found, after)) :
    found.sectionBytes ≠ [] ∧ ∃ c s, rest = c ++ s :: after ∧ OnLine c ∧ s.byte = 93 ∧
      ∀ after', header (c ++ s :: after') = .ok (found, after') := by
  simp only [header, bind_ok, reject_ok, not_not] at h
  obtain ⟨⟨bytes, afterName⟩, hname, ⟨sub, afterSub⟩, hsub, _, hbra, h⟩ := h
  cases h
  have hne : bytes ≠ [] := by
    simp only [name, bind_ok, reject_ok] at hname
    obtain ⟨_, _, _, htook, hname⟩ := hname
    cases hname
    exact htook
  obtain ⟨c, rfl, hcli, hc⟩ := local_name false _ _ _ hname
  obtain ⟨d, rfl, hdli, hd⟩ := local_subsection _ _ _ hsub
  obtain ⟨s, tail, rfl, hs⟩ := peek_eq_some hbra
  refine ⟨hne, c ++ d, s, by simp, hcli.append hdli, hs, fun after' => ?_⟩
  have hform : c ++ d ++ s :: after' = c ++ (d ++ s :: after') := by simp
  rw [hform, header, bind_ok]
  refine ⟨(bytes, d ++ s :: after'), hc _ (peek_append (by simp) d), ?_⟩
  rw [bind_ok]
  refine ⟨(sub, s :: after'), hd _ (by simp), ?_⟩
  simp only [bind_ok, reject_ok, not_not]
  exact ⟨(), by rw [peek_cons, hs], rfl⟩

end Headers

section Values

variable {cur : SectionName} {tail : List Symbol}
variable {s : Symbol} {rest after : List Symbol} {keep stop stop' : Nat} {read bs : Bytes}

/-- What may follow a value or a name on its line: blanks, and then the end of the line or a comment. -/
def Closed (tail : List Symbol) : Prop := ∀ b ∈ peek (space tail), b = lf ∨ isCommentStart b = true

/-- What is left after the line end or before the line end that ends a comment. -/
def afterClose (tail : List Symbol) : List Symbol :=
  match space tail with
  | [] => []
  | s :: rest => if s.byte = lf then rest else comment rest

lemma space_cons_of_blank (h : isBlank s.byte) (rest : List Symbol) :
    space (s :: rest) = space rest :=
  @dropWhile_cons_of_pos _ (fun s : Symbol => isBlank s.byte) _ _ h

lemma space_cons_of_not_blank (h : isBlank s.byte = false) (rest : List Symbol) :
    space (s :: rest) = s :: rest :=
  @dropWhile_cons_of_neg _ (fun s : Symbol => isBlank s.byte) _ _ (by simp [h])

lemma closed_cons (h : isBlank s.byte = false) :
    Closed (s :: rest) ↔ s.byte = lf ∨ isCommentStart s.byte := by
  rw [Closed, space_cons_of_not_blank h]
  simp

lemma afterClose_cons (h : isBlank s.byte = false) :
    afterClose (s :: rest) = if s.byte = lf then rest else comment rest := by
  rw [afterClose, space_cons_of_not_blank h]

lemma item_closed (h : Closed tail) : item cur tail = .ok (none, afterClose tail) := by
  unfold item afterClose
  unfold Closed at h
  cases hsp : space tail with
  | nil => rfl
  | cons s rest =>
    rw [hsp] at h
    simp only [itemAt]
    rcases h s.byte rfl with hlf | hcom
    · rw [if_pos hlf, if_pos hlf]
    · by_cases hlf : s.byte = lf
      · rw [if_pos hlf, if_pos hlf]
      · rw [if_neg hlf, if_neg hlf, if_pos hcom]

lemma comment_ne (h : isCommentStart b) : b ≠ 0 ∧ b ≠ lf ∧ b ≠ 34 ∧ isBlank b = false := by
  simp only [isCommentStart, Bool.or_eq_true, decide_eq_true_eq] at h
  rcases h with rfl | rfl <;> decide

lemma blank_ne (h : isBlank b) : b ≠ 0 ∧ b ≠ lf ∧ b ≠ 34 ∧ isCommentStart b = false ∧ b ≠ 92 := by
  simp only [isBlank, Bool.or_eq_true, decide_eq_true_eq] at h
  rcases h with rfl | rfl <;> decide

section Steps

variable {s : Symbol} (rest : List Symbol) (value : Bytes) (keep stop : Nat)

lemma valueLoop_lf (h : s.byte = lf) :
    valueLoop (s :: rest) value false keep stop = .ok (value.take keep, stop, rest) := by
  rw [valueLoop.eq_def]
  simp only [h, if_neg (show lf ≠ 0 by decide)]
  rfl

lemma valueLoop_comment (h : isCommentStart s.byte) :
    valueLoop (s :: rest) value false keep stop = .ok (value.take keep, stop, comment rest) := by
  obtain ⟨h0, hlf, hquo, -⟩ := comment_ne h
  rw [valueLoop.eq_def]
  simp only [if_neg h0, if_neg hlf, if_neg hquo, h]
  rfl

lemma valueLoop_blank (h : isBlank s.byte) :
    valueLoop (s :: rest) value false keep stop =
      valueLoop rest (if value = [] then [] else value ++ [s.byte]) false keep stop := by
  obtain ⟨h0, hlf, hquo, hcom, hesc⟩ := blank_ne h
  rw [valueLoop.eq_def]
  simp only [if_neg h0, if_neg hlf, if_neg hquo, hcom, Bool.false_and, Bool.false_eq_true, if_false,
    if_neg hesc, h, Bool.not_false, Bool.and_self, if_true]
  split_ifs with hval
  · rw [hval]
  · rfl

end Steps

lemma valueLoop_closed {value : Bytes} (h : Closed tail) (hkeep : keep ≤ value.length) :
    valueLoop tail value false keep stop = .ok (value.take keep, stop, afterClose tail) := by
  induction tail generalizing value with
  | nil => rfl
  | cons s rest ih =>
    cases hbl : isBlank s.byte with
    | true =>
      unfold Closed afterClose at *
      rw [space_cons_of_blank hbl] at h ⊢
      rw [valueLoop_blank _ _ _ _ hbl]
      split_ifs with hval
      · subst hval
        exact ih h hkeep
      · rw [ih h (by rw [length_append]; omega), take_append_of_le_length hkeep]
    | false =>
      rw [afterClose_cons hbl]
      by_cases hlf : s.byte = lf
      · rw [if_pos hlf, valueLoop_lf _ _ _ _ hlf]
      · rw [if_neg hlf, valueLoop_comment _ _ _ _ (((closed_cons hbl).mp h).resolve_left hlf)]

/-- One turn of the loop of a value that goes on: the symbols it takes and the state after them. -/
inductive Taken : Bytes → Bool → Nat → List Symbol → Bytes → Bool → Nat → Prop
  | quote {s : Symbol} {value : Bytes} {quoted : Bool} {keep : Nat} (h : s.byte = 34) :
    Taken value quoted keep [s] value (!quoted) value.length
  | continuation {s t : Symbol} {value : Bytes} {quoted : Bool} {keep : Nat} (h : s.byte = 92) (ht : t.byte = lf) :
    Taken value quoted keep [s, t] value quoted value.length
  | escape {s t : Symbol} {b : UInt8} {value : Bytes} {quoted : Bool} {keep : Nat} (h : s.byte = 92) (ht : t.byte ≠ lf)
    (hb : escape t.byte = some b) : Taken value quoted keep [s, t] (value ++ [b]) quoted (value.length + 1)
  | blank {s : Symbol} {value : Bytes} {keep : Nat} (h : isBlank s.byte = true) :
    Taken value false keep [s] (if value = [] then [] else value ++ [s.byte]) false keep
  | plain {s : Symbol} {value : Bytes} {quoted : Bool} {keep : Nat} (h0 : s.byte ≠ 0) (hlf : s.byte ≠ lf)
    (hquote : s.byte ≠ 34) (hcomment : ¬ (isCommentStart s.byte && !quoted) = true) (hescape : s.byte ≠ 92)
    (hblank : ¬ (isBlank s.byte && !quoted) = true) :
    Taken value quoted keep [s] (value ++ [s.byte]) quoted (value.length + 1)

inductive Run (value : Bytes) (quoted : Bool) (keep : Nat) : List Symbol → Bytes → Bool → Nat → Prop
  | nil : Run value quoted keep [] value quoted keep
  | snoc {c d : List Symbol} {value₁ value₂ : Bytes} {quoted₁ quoted₂ : Bool} {keep₁ keep₂ : Nat}
    (pre : Run value quoted keep c value₁ quoted₁ keep₁) (last : Taken value₁ quoted₁ keep₁ d value₂ quoted₂ keep₂) :
    Run value quoted keep (c ++ d) value₂ quoted₂ keep₂

section Runs

variable {value value₁ value₂ : Bytes} {quoted quoted₁ quoted₂ : Bool} {keep keep₁ keep₂ : Nat} {c d : List Symbol}

lemma Run.trans (first : Run value quoted keep c value₁ quoted₁ keep₁)
    (later : Run value₁ quoted₁ keep₁ d value₂ quoted₂ keep₂) :
    Run value quoted keep (c ++ d) value₂ quoted₂ keep₂ := by
  induction later with
  | nil =>
    rw [append_nil]
    exact first
  | snoc pre last ih =>
    rw [← append_assoc]
    exact ih.snoc last

lemma Run.cons (first : Taken value quoted keep c value₁ quoted₁ keep₁)
    (later : Run value₁ quoted₁ keep₁ d value₂ quoted₂ keep₂) :
    Run value quoted keep (c ++ d) value₂ quoted₂ keep₂ :=
  (Run.nil.snoc first).trans later

lemma Taken.valueLoop (h : Taken value quoted keep c value₁ quoted₁ keep₁) (tail : List Symbol)
    (stop : Nat) :
    ∃ stop', valueLoop (c ++ tail) value quoted keep stop =
      valueLoop tail value₁ quoted₁ keep₁ stop' := by
  have hcom : isCommentStart 92 = false := by decide
  cases h with
  | blank h => exact ⟨_, valueLoop_blank tail _ _ stop h⟩
  | quote h =>
    refine ⟨widths tail, ?_⟩
    rw [singleton_append, valueLoop.eq_def]
    simp [h, if_neg (show (34 : UInt8) ≠ lf by decide)]
  | continuation h ht =>
    refine ⟨widths tail, ?_⟩
    rw [cons_append, singleton_append, valueLoop.eq_def]
    simp [h, if_neg (show (92 : UInt8) ≠ lf by decide), hcom, ht]
  | escape h ht hb =>
    refine ⟨widths tail, ?_⟩
    rw [cons_append, singleton_append, valueLoop.eq_def]
    simp [h, if_neg (show (92 : UInt8) ≠ lf by decide), hcom, ht, hb]
  | plain h0 hlf hquote hcomment hescape hblank =>
    refine ⟨widths tail, ?_⟩
    rw [singleton_append, valueLoop.eq_def]
    simp only [if_neg h0, if_neg hlf, if_neg hquote, if_neg hcomment, if_neg hescape, if_neg hblank]

lemma Run.valueLoop (h : Run value quoted keep c value₁ quoted₁ keep₁) (tail : List Symbol)
    (stop : Nat) :
    ∃ stop', valueLoop (c ++ tail) value quoted keep stop =
      valueLoop tail value₁ quoted₁ keep₁ stop' := by
  induction h generalizing tail with
  | nil => exact ⟨stop, rfl⟩
  | snoc pre last ih =>
    obtain ⟨stop₁, h₁⟩ := ih (_ ++ tail)
    obtain ⟨stop₂, h₂⟩ := last.valueLoop tail stop₁
    exact ⟨stop₂, by rw [append_assoc, h₁, h₂]⟩

end Runs

/-- Where a value ends: at the first symbol, because nothing more is kept, or after symbols of which
the last is kept. -/
def ValueEnds (rest : List Symbol) (read : Bytes) (quoted : Bool) (keep stop : Nat) (bytes : Bytes) (stop' : Nat)
    (after : List Symbol) : Prop :=
  (quoted = false ∧ bytes = read.take keep ∧ stop' = stop ∧ Closed rest ∧ after = afterClose rest) ∨
    ∃ c tail, Run read quoted keep c bytes false bytes.length ∧ rest = c ++ tail ∧ stop' = widths tail ∧ Closed tail ∧
      after = afterClose tail

lemma ValueEnds.kept {c : List Symbol} {read' : Bytes} {quoted quoted' : Bool}
    (htook : Taken read quoted keep c read' quoted' read'.length)
    (h : ValueEnds rest read' quoted' read'.length (widths rest) bs stop' after) :
    ValueEnds (c ++ rest) read quoted keep stop bs stop' after := by
  rcases h with ⟨hquo, hbs, hstop, hcl, haf⟩ | ⟨d, tail, hrun, rfl, hstop, hcl, haf⟩
  · rw [take_length] at hbs
    subst hbs hquo
    exact inr ⟨c, rest, Run.nil.snoc htook, rfl, hstop, hcl, haf⟩
  · exact inr ⟨c ++ d, tail, Run.cons htook hrun, by simp, hstop, hcl, haf⟩

lemma ValueEnds.blank
    (hbl : isBlank s.byte) (hkeep : keep ≤ read.length)
    (h : ValueEnds rest (if read = [] then [] else read ++ [s.byte]) false keep stop bs stop' after) :
    ValueEnds (s :: rest) read false keep stop bs stop' after := by
  rcases h with ⟨_, hbs, hstop, hcl, haf⟩ | ⟨d, tail, hrun, rfl, hstop, hcl, haf⟩
  · refine inl ⟨rfl, ?_, hstop, ?_, ?_⟩
    · rw [hbs]
      split_ifs with hread
      · rw [hread]
      · exact take_append_of_le_length hkeep
    · unfold Closed at *
      rw [space_cons_of_blank hbl]
      exact hcl
    · unfold afterClose at *
      rw [space_cons_of_blank hbl]
      exact haf
  · exact inr ⟨s :: d, tail, Run.cons (.blank hbl) hrun, rfl, hstop, hcl, haf⟩

lemma valueLoop_ends {quoted : Bool} (hkeep : keep ≤ read.length)
    (h : valueLoop rest read quoted keep stop = .ok (bs, stop', after)) :
    ValueEnds rest read quoted keep stop bs stop' after := by
  fun_induction valueLoop rest read quoted keep stop with
  | case1 => cases h
  | case2 read quoted keep stop hquoted =>
    cases h
    refine inl ⟨by simpa using hquoted, rfl, rfl, ?_, rfl⟩
    intro b hb
    cases hb
  | case3 | case4 => cases h
  | case5 s rest read quoted keep stop h0 hlf hquoted =>
    cases h
    have hbl : isBlank s.byte = false := by
      rw [hlf]
      decide
    refine inl ⟨by simpa using hquoted, rfl, rfl, (closed_cons hbl).mpr (inl hlf), ?_⟩
    rw [afterClose_cons hbl, if_pos hlf]
  | case6 s rest read quoted keep stop h0 hlf hquo ih =>
    exact ValueEnds.kept (.quote hquo) (ih le_rfl h)
  | case7 s rest read quoted keep stop h0 hlf hquo hcom =>
    cases h
    rw [Bool.and_eq_true, Bool.not_eq_true'] at hcom
    have hbl := (comment_ne hcom.1).2.2.2
    refine inl ⟨hcom.2, rfl, rfl, (closed_cons hbl).mpr (inr hcom.1), ?_⟩
    rw [afterClose_cons hbl, if_neg hlf]
  | case8 => cases h
  | case9 s read quoted keep stop h0 hlf hquo hcom hesc t rest ht ih =>
    exact ValueEnds.kept (.continuation hesc ht) (ih le_rfl h)
  | case10 => cases h
  | case11 s read quoted keep stop h0 hlf hquo hcom hesc t rest ht b hb ih =>
    have hlen : (read ++ [b]).length = read.length + 1 := length_append
    rw [← hlen] at ih h
    refine @ValueEnds.kept _ _ _ _ _ _ _ [s, t] _ _ _ ?_ (ih le_rfl h)
    rw [hlen]
    exact .escape hesc ht hb
  | case12 s rest quoted keep stop _ _ _ _ _ hbl ih =>
    rw [Bool.and_eq_true, Bool.not_eq_true'] at hbl
    obtain ⟨hbl, rfl⟩ := hbl
    exact ValueEnds.blank hbl hkeep (ih hkeep h)
  | case13 s rest read quoted keep stop _ _ _ _ _ hbl hread ih =>
    rw [Bool.and_eq_true, Bool.not_eq_true'] at hbl
    obtain ⟨hbl, rfl⟩ := hbl
    refine ValueEnds.blank hbl hkeep ?_
    rw [if_neg hread]
    exact ih (by rw [length_append]; omega) h
  | case14 s rest read quoted keep stop h0 hlf hquo hcom hesc hbl ih =>
    have hlen : (read ++ [s.byte]).length = read.length + 1 := length_append
    rw [← hlen] at ih h
    refine @ValueEnds.kept _ _ _ _ _ _ _ [s] _ _ _ ?_ (ih le_rfl h)
    rw [hlen]
    exact .plain h0 hlf hquo hcom hesc hbl

lemma valueLoop_space (rest : List Symbol) (stop : Nat) :
    valueLoop (space rest) [] false 0 stop = valueLoop rest [] false 0 stop := by
  induction rest with
  | nil => rfl
  | cons s rest ih =>
    cases hbl : isBlank s.byte with
    | true => rw [space_cons_of_blank hbl, valueLoop_blank rest [] 0 stop hbl, ih, if_pos rfl]
    | false => rw [space_cons_of_not_blank hbl]

lemma valueLoop_blanks {blanks : List Symbol} (hgap : Blanks blanks) (rest : List Symbol)
    (stop : Nat) : valueLoop (blanks ++ rest) [] false 0 stop = valueLoop rest [] false 0 stop := by
  rw [← valueLoop_space, space_append_space hgap, valueLoop_space]

end Values

section Entries

variable {cur : SectionName} {letters blanks tail rest after : List Symbol} {equals : Symbol}

/-- The contents of an entry apart from its line. -/
abbrev Assignment := SectionName × Bytes × Option Bytes

def assignment : Item → Option Assignment
  | .header _ _ _ => none
  | .entry _ _ _ _ name key value => some (name, key, value)

structure Letters (letters : List Symbol) : Prop where
  first : ∃ s ∈ letters.head?, isAlphabetic s.byte = true
  all : ∀ s ∈ letters, isNameByte s.byte = true

lemma Letters.ne_nil (h : Letters letters) : letters ≠ [] := by
  rintro rfl
  obtain ⟨s, hs, -⟩ := h.first
  cases hs

lemma closed_peek (h : Closed tail) : ∀ b ∈ peek tail, isBlank b ∨ b = lf ∨ isCommentStart b := by
  intro b hb
  obtain ⟨s, rest, rfl, rfl⟩ := peek_eq_some hb
  cases hbl : isBlank s.byte with
  | true => exact inl rfl
  | false => exact inr ((closed_cons hbl).mp h)

lemma not_isNameByte (h : isBlank b ∨ b = 61 ∨ b = lf ∨ isCommentStart b) :
    isNameByte b = false := by
  simp only [isBlank, isCommentStart, Bool.or_eq_true, decide_eq_true_eq] at h
  rcases h with (rfl | rfl) | rfl | rfl | rfl | rfl <;> decide

lemma name_letters (hlet : Letters letters) (hrest : ∀ b ∈ peek rest, isNameByte b = false) :
    name true (letters ++ rest) = .ok (letters.map byte, rest) := by
  obtain ⟨hskip, htook⟩ := skipWhile_append hlet.all hrest
  obtain ⟨s, hs, halp⟩ := hlet.first
  obtain ⟨more, rfl⟩ : ∃ more, letters = s :: more := by
    cases letters with
    | nil => cases hs
    | cons s' more =>
      cases hs
      exact ⟨more, rfl⟩
  simp only [name, bind_ok, reject_ok, htook, hskip]
  refine ⟨(), ?_, (), by simp, rfl⟩
  simp [halp]

lemma name_cases {bs : Bytes} (h : name true rest = .ok (bs, after)) :
    ∃ letters, Letters letters ∧ rest = letters ++ after ∧ bs = letters.map byte := by
  simp only [name, bind_ok, reject_ok] at h
  obtain ⟨_, hfirst, _, htook, h⟩ := h
  cases h
  obtain ⟨c, hcut, hc, hstop⟩ := skipWhile_split isNameByte rest
  have htook' : takenWhile isNameByte rest = c.map byte := by
    conv_lhs => rw [hcut]
    exact (skipWhile_append hc hstop).2
  refine ⟨c, ⟨?_, hc⟩, hcut, htook'⟩
  cases c with
  | nil => exact absurd htook' htook
  | cons s c =>
    rw [hcut] at hfirst
    simpa using hfirst

lemma entry_implicit (hcur : cur.sectionBytes ≠ []) (hlet : Letters letters) (htail : Closed tail) :
    entry cur (letters ++ tail) = .ok (.entry (widths (letters ++ tail)) (widths tail) (widths tail)
      (newlines (letters ++ tail)) cur (letters.map byte) none, space tail) := by
  have hname := @name_letters letters tail hlet fun b hb =>
    not_isNameByte ((closed_peek htail b hb).imp id inr)
  simp only [entry, bind_ok, reject_ok]
  refine ⟨(), hcur, _, hname, ?_⟩
  cases hpeek : peek (space tail) with
  | none => rfl
  | some b =>
    have hclo := htail b hpeek
    have hne : b ≠ 61 := by
      rintro rfl
      revert hclo
      decide
    have hend : (b = lf || isCommentStart b) := by
      rcases hclo with rfl | hcom
      · rfl
      · rw [hcom, Bool.or_true]
    simp only [if_neg hne, hend, if_true]
    rfl

lemma entry_explicit (hcur : cur.sectionBytes ≠ []) (hlet : Letters letters)
    (hgap : Blanks blanks) (hequ : equals.byte = 61) :
    entry cur (letters ++ (blanks ++ equals :: rest)) =
      valueLoop rest [] false 0 (widths (space rest)) >>= fun read =>
        .ok (.entry (widths (letters ++ (blanks ++ equals :: rest))) (widths (space rest)) read.2.1
          (newlines (letters ++ (blanks ++ equals :: rest))) cur (letters.map byte) (some read.1), read.2.2) := by
  have hsp : space (blanks ++ equals :: rest) = equals :: rest :=
    space_append hgap (by rintro b ⟨⟩; rw [hequ]; decide)
  have hstop : ∀ b ∈ peek (blanks ++ equals :: rest), isNameByte b = false := by
    intro b hb
    cases blanks with
    | nil =>
      cases hb
      exact not_isNameByte (inr (inl hequ))
    | cons s blanks =>
      cases hb
      exact not_isNameByte (inl (hgap s (.head _)))
  have hval : value (space rest) = valueLoop rest [] false 0 (widths (space rest)) := by
    rw [value, space_space, valueLoop_space]
  rw [entry, show reject (cur.sectionBytes = []) _ = Except.ok () from reject_ok.mpr hcur,
    name_letters hlet hstop]
  have hpeek : peek (space (blanks ++ equals :: rest)) = some 61 := by rw [hsp, peek_cons, hequ]
  simp only [bind, Except.bind, hpeek, if_true]
  rw [hsp, tail_cons, hval]
  rfl

/-- How a variable was read: without a value, or with one that its symbols settle. -/
lemma entry_cases {found : Item} (h : entry cur rest = .ok (found, after)) :
    cur.sectionBytes ≠ [] ∧ ∃ letters, Letters letters ∧
    ((∃ tail, rest = letters ++ tail ∧ Closed tail ∧ after = space tail ∧
        found = .entry (widths rest) (widths tail) (widths tail) (newlines rest) cur (letters.map byte) none) ∨
      ∃ blanks equals blanks' c tail bytes, Blanks blanks ∧ equals.byte = 61 ∧
        Blanks blanks' ∧ rest = letters ++ (blanks ++ equals :: (blanks' ++ (c ++ tail))) ∧
        Closed tail ∧ after = afterClose tail ∧
        Run [] false 0 c bytes false bytes.length ∧
        found = .entry (widths rest) (widths (c ++ tail)) (widths tail) (newlines rest) cur
          (letters.map byte) (some bytes)) := by
  simp only [entry, bind_ok, reject_ok] at h
  obtain ⟨_, hcur, ⟨bytes, afterName⟩, hname, h⟩ := h
  obtain ⟨letters, hlet, rfl, rfl⟩ := name_cases hname
  refine ⟨hcur, letters, hlet, ?_⟩
  split at h
  · rename_i hpeek
    cases h
    refine inl ⟨afterName, rfl, ?_, rfl, rfl⟩
    intro b hb
    rw [hpeek] at hb
    cases hb
  · rename_i b hpeek
    split_ifs at h with hequ hend
    · right
      simp only [bind_ok] at h
      obtain ⟨⟨bytes, stop, after'⟩, hval, h⟩ := h
      cases h
      subst hequ
      obtain ⟨equals, tail, hspa, hbyte⟩ := peek_eq_some hpeek
      obtain ⟨blanks, hsp, hgap, -⟩ := space_split afterName
      rw [hspa] at hsp
      rw [hspa, tail_cons] at hval
      rw [hspa]
      obtain ⟨blanks', hsp', hgap', -⟩ := space_split tail
      rw [value, space_space] at hval
      rcases valueLoop_ends le_rfl hval with ⟨-, hbs, hstop, hcl, haf⟩ |
        ⟨c, tail', hrun, hcut, hstop, hcl, haf⟩
      · refine ⟨blanks, equals, blanks', [], space tail, bytes, hgap, hbyte, hgap', ?_, hcl, haf, ?_, ?_⟩
        · conv_lhs => rw [hsp, hsp']
          rfl
        · rw [hbs]
          exact Run.nil
        · rw [hstop]
          rfl
      · refine ⟨blanks, equals, blanks', c, tail', bytes, hgap, hbyte, hgap', ?_, hcl, haf, ?_, ?_⟩
        · conv_lhs => rw [hsp, hsp', hcut]
        · exact hrun
        · rw [hstop, tail_cons, hcut]
    · left
      cases h
      refine ⟨afterName, rfl, ?_, rfl, rfl⟩
      intro b' hb'
      rw [hpeek] at hb'
      cases hb'
      rw [Bool.or_eq_true, decide_eq_true_eq] at hend
      exact hend

lemma entry_assignment {found : Item} (h : entry cur rest = .ok (found, after)) :
    ∃ key value, assignment found = some (cur, key, value) := by
  obtain ⟨-, letters, -, ⟨_, -, -, -, rfl⟩ | ⟨_, _, _, _, _, _, -, -, -, -, -, -, -, rfl⟩⟩ := entry_cases h
  · exact ⟨_, _, rfl⟩
  · exact ⟨_, _, rfl⟩

end Entries

section Items

variable {cur : SectionName} {text rest tail : List Symbol}

def assignments (cur : SectionName) (text : List Symbol) : Option (List Assignment) :=
  (items cur text).toOption.map (fun found => found.filterMap assignment)

def contextAfter (cur : SectionName) (found : List Item) : SectionName :=
  found.foldl (fun context found => context.after (some found)) cur

lemma items_eq (cur : SectionName) (text : List Symbol) :
    items cur text = item cur text >>= fun turn =>
      items (cur.after turn.1) turn.2 >>= fun more => .ok (turn.1.toList ++ more) := by
  rw [items.eq_def]
  split_ifs with hend
  · subst hend
    change _ = items cur [] >>= _
    rw [items.eq_def, dif_pos rfl]
    rfl
  · split
    · rename_i err hturn
      rw [hturn]
      rfl
    rename_i found rest hturn
    rw [hturn]
    change _ = items (cur.after found) rest >>= _
    split
    · rename_i err hmore
      rw [hmore]
      rfl
    · rename_i more hmore
      rw [hmore]
      rfl

lemma items_nil (cur : SectionName) : items cur [] = .ok [] := by
  rw [items.eq_def, dif_pos rfl]

lemma items_of_item {found : Option Item} (h : item cur text = .ok (found, rest)) :
    items cur text = items (cur.after found) rest >>= fun more => .ok (found.toList ++ more) := by
  rw [items_eq, h]
  rfl

lemma items_space (cur : SectionName) (text : List Symbol) :
    items cur (space text) = items cur text := by
  rw [items_eq, items_eq cur text, item, item, space_space]

lemma items_closed (h : Closed tail) : items cur (afterClose tail) = items cur tail := by
  rw [items_of_item (item_closed h)]
  change _ = items cur (afterClose tail) >>= _
  cases items cur (afterClose tail) <;> rfl

lemma assignments_of_item {found : Option Item} (h : item cur text = .ok (found, rest)) :
    assignments cur text =
      (assignments (cur.after found) rest).map (fun more => (found.bind assignment).toList ++ more) := by
  unfold assignments
  rw [items_of_item h]
  cases items (cur.after found) rest with
  | error error => rfl
  | ok more =>
    cases found with
    | none => rfl
    | some found =>
      change some ((found :: more).filterMap assignment) = _
      cases hass : assignment found with
      | none | some content => simp [Except.toOption, hass]

/-- What is left after an entry that `tail` follows: without a value, the end of the line is still
to be read. -/
def leftAfter (value : Option Bytes) (tail : List Symbol) : List Symbol :=
  match value with
  | none => space tail
  | some _ => afterClose tail

lemma items_leftAfter (value : Option Bytes) (hcl : Closed tail) :
    items cur (leftAfter value tail) = items cur tail := by
  cases value with
  | none => exact items_space cur tail
  | some bs => exact items_closed hcl

/-- What a turn of the main loop found: the end of a line, a header or an entry. -/
lemma item_cases {found : Option Item} (h : item cur text = .ok (found, rest)) :
    (found = none ∧ Closed text ∧ rest = afterClose text) ∨
      ∃ s tail, space text = s :: tail ∧ ¬ s.byte = lf ∧ ¬ isCommentStart s.byte ∧
        ((s.byte = 91 ∧ ∃ name, header tail = .ok (name, rest) ∧
            found = some (.header (widths (s :: tail)) (widths rest) name)) ∨
          (¬ s.byte = 91 ∧ ∃ x, entry cur (s :: tail) = .ok (x, rest) ∧ found = some x)) := by
  unfold Closed afterClose
  rw [item] at h
  cases hsp : space text with
  | nil =>
    rw [hsp] at h
    cases h
    exact .inl ⟨rfl, (fun b hb => by cases hb), rfl⟩
  | cons s tail =>
    rw [hsp] at h
    simp only [itemAt] at h
    split_ifs at h with hlf hcom hhd
    · cases h
      exact .inl ⟨rfl, by simp [hlf], by simp [hlf]⟩
    · cases h
      exact .inl ⟨rfl, by simp [hcom], by simp [hlf]⟩
    · obtain ⟨⟨name, after⟩, hname, h⟩ := bind_ok.mp h
      cases h
      exact .inr ⟨s, tail, rfl, hlf, hcom, .inl ⟨hhd, name, hname, rfl⟩⟩
    · obtain ⟨⟨x, after⟩, hen, h⟩ := bind_ok.mp h
      cases h
      exact .inr ⟨s, tail, rfl, hlf, hcom, .inr ⟨hhd, x, hen, rfl⟩⟩

lemma item_header {start stop : Nat} (h : item cur text = .ok (some (.header start stop found), rest)) :
    found.sectionBytes ≠ [] ∧ ∃ c s, text = c ++ s :: rest ∧ OnLine c ∧ s.byte = 93 ∧ stop = widths rest ∧
      ∀ rest', ∃ start' stop', item cur (c ++ s :: rest') = .ok (some (.header start' stop' found), rest') := by
  obtain ⟨blanks, hsp, hgap, hstop⟩ := space_split text
  rcases item_cases h with ⟨hnone, -⟩ | ⟨s, tail, hspa, hlf, hcom,
    ⟨hhd, name, hname, hgot⟩ | ⟨-, x, hen, hgot⟩⟩
  · cases hnone
  · cases hgot
    rw [hspa] at hsp hstop
    obtain ⟨hne, c, t, rfl, hline, ht, hc⟩ := header_local hname
    refine ⟨hne, blanks ++ s :: c, t, by rw [hsp]; simp,
      (onLine_of_accepted (by decide) hgap).append (hline.cons hlf), ht, rfl, fun rest' =>
      ⟨widths (s :: (c ++ t :: rest')), widths rest', ?_⟩⟩
    have hspa' : space (blanks ++ s :: c ++ t :: rest') = s :: (c ++ t :: rest') := by
      rw [append_assoc]
      exact space_append hgap (by rintro b ⟨⟩; exact hstop _ rfl)
    rw [item, hspa']
    simp only [itemAt, if_neg hlf, if_neg hcom, if_pos hhd]
    exact bind_ok.mpr ⟨(found, rest'), hc rest', rfl⟩
  · cases hgot
    obtain ⟨key, value, hass⟩ := entry_assignment hen
    cases hass

lemma alphabetic_ne (h : isAlphabetic b) :
    isBlank b = false ∧ b ≠ lf ∧ isCommentStart b = false ∧ b ≠ 91 := by
  have hall : ∀ k : Fin 256, isAlphabetic (UInt8.ofNat k) → isBlank (UInt8.ofNat k) = false ∧
      UInt8.ofNat k ≠ lf ∧ isCommentStart (UInt8.ofNat k) = false ∧ UInt8.ofNat k ≠ 91 := by
    decide +kernel
  have hb : b = UInt8.ofNat b.toNat := by simp
  rw [hb] at h ⊢
  exact hall ⟨b.toNat, b.toNat_lt⟩ h

lemma item_of_entry {blanks letters : List Symbol} (hgap : Blanks blanks)
    (hlet : Letters letters) : item cur (blanks ++ (letters ++ rest)) =
      entry cur (letters ++ rest) >>= fun found => .ok (some found.1, found.2) := by
  obtain ⟨s, hs, halp⟩ := hlet.first
  obtain ⟨hbl, hlf, hcom, hbra⟩ := alphabetic_ne halp
  cases letters with
  | nil => cases hs
  | cons s' letters =>
    cases hs
    have hspa : space (blanks ++ (s :: letters ++ rest)) = s :: (letters ++ rest) :=
      space_append hgap (by rintro b ⟨⟩; exact hbl)
    rw [item, hspa]
    simp only [itemAt, if_neg hlf, hcom, Bool.false_eq_true, if_false, if_neg hbra]
    rfl

/-- An entry is the same before any end of its line. -/
lemma item_entry {start valueStart stop lines : Nat} {key : Bytes} {value : Option Bytes}
    (h : item cur text = .ok (some (.entry start valueStart stop lines found key value), rest)) :
    found = cur ∧ cur.sectionBytes ≠ [] ∧ ∃ blanks letters, Blanks blanks ∧
      Letters letters ∧ key = letters.map byte ∧ ∃ c tail, text = blanks ++ (letters ++ (c ++ tail)) ∧
      stop = widths tail ∧ Closed tail ∧ rest = leftAfter value tail ∧
      (∀ tail', Closed tail' → ∃ found',
        item cur (blanks ++ (letters ++ (c ++ tail'))) = .ok (some found', leftAfter value tail') ∧
        assignment found' = some (cur, key, value)) ∧
      ((value = none ∧ c = [] ∧ valueStart = widths tail) ∨
        ∃ bytes blanks₁ equals blanks₂ d, value = some bytes ∧ c = blanks₁ ++ equals :: (blanks₂ ++ d) ∧
          Blanks blanks₁ ∧ equals.byte = 61 ∧ Blanks blanks₂ ∧
          valueStart = widths (d ++ tail) ∧ Run [] false 0 d bytes false bytes.length) := by
  obtain ⟨blanks, hsp, hgap, -⟩ := space_split text
  rcases item_cases h with ⟨hnone, -⟩ | ⟨s, tail, hspa, -, -, ⟨-, name, -, hgot⟩ | ⟨-, x, hen, hgot⟩⟩
  · cases hnone
  · cases hgot
  cases hgot
  rw [hspa] at hsp
  obtain ⟨hcur, letters, hlet, ⟨tail', hcut, hcl, haf, hgot⟩ |
    ⟨blanks₁, equals, blanks₂, d, tail', bytes, hgap₁, hequ, hgap₂, hcut, hcl, haf, hval, hgot⟩⟩ :=
    entry_cases hen
  · cases hgot
    refine ⟨rfl, hcur, blanks, letters, hgap, hlet, rfl, [], tail', by rw [hsp, hcut]; rfl, rfl, hcl,
      haf, ?_, inl ⟨rfl, rfl, rfl⟩⟩
    intro tail'' hcl'
    exact ⟨_, by rw [nil_append, item_of_entry hgap hlet, entry_implicit hcur hlet hcl']; rfl, rfl⟩
  · cases hgot
    refine ⟨rfl, hcur, blanks, letters, hgap, hlet, rfl, blanks₁ ++ equals :: (blanks₂ ++ d), tail',
      by rw [hsp, hcut]; simp, rfl, hcl, haf, ?_,
      inr ⟨bytes, blanks₁, equals, blanks₂, d, rfl, rfl, hgap₁, hequ, hgap₂, rfl, hval⟩⟩
    intro tail'' hcl'
    obtain ⟨stop', hd⟩ := hval.valueLoop tail'' (widths (space (blanks₂ ++ (d ++ tail''))))
    rw [valueLoop_closed hcl' le_rfl, take_length] at hd
    have hform : blanks ++ (letters ++ (blanks₁ ++ equals :: (blanks₂ ++ d) ++ tail'')) =
        blanks ++ (letters ++ (blanks₁ ++ equals :: (blanks₂ ++ (d ++ tail'')))) := by simp
    rw [hform, item_of_entry hgap hlet, entry_explicit hcur hlet hgap₁ hequ,
      valueLoop_blanks hgap₂, hd]
    exact ⟨_, rfl, rfl⟩

lemma closed_append {blanks rest : List Symbol} (hgap : Blanks blanks)
    (hrest : ∀ b ∈ peek rest, b = lf ∨ isCommentStart b) :
    Closed (blanks ++ rest) ∧ space (blanks ++ rest) = rest := by
  have hsp : space (blanks ++ rest) = rest := by
    refine space_append hgap fun b hb => ?_
    rcases hrest b hb with rfl | hcom
    · decide
    · exact (comment_ne hcom).2.2.2
  refine ⟨?_, hsp⟩
  unfold Closed
  rw [hsp]
  exact hrest

lemma leftAfter_local (value : Option Bytes) (hcl : Closed tail)
    (hrest : leftAfter value tail ≠ []) :
    ∃ c, tail = c ++ leftAfter value tail ∧ ∀ rest', peek rest' = peek (leftAfter value tail) →
      Closed (c ++ rest') ∧ leftAfter value (c ++ rest') = rest' := by
  obtain ⟨blanks, hsp, hgap, -⟩ := space_split tail
  cases value with
  | none =>
    refine ⟨blanks, hsp, fun rest' hpeek => closed_append hgap ?_⟩
    rw [hpeek]
    exact hcl
  | some bs =>
    unfold leftAfter afterClose at hrest ⊢
    cases hspa : space tail with
    | nil =>
      rw [hspa] at hrest
      exact absurd rfl hrest
    | cons s rest =>
      have hclo : s.byte = lf ∨ isCommentStart s.byte := by
        unfold Closed at hcl
        rw [hspa] at hcl
        exact hcl s.byte rfl
      have hline : ∀ rest', Closed (blanks ++ s :: rest') ∧ space (blanks ++ s :: rest') = s :: rest' := by
        intro rest'
        refine closed_append hgap ?_
        rintro b ⟨⟩
        exact hclo
      rw [hspa] at hsp
      dsimp only
      split_ifs with hlf
      · refine ⟨blanks ++ [s], by rw [append_assoc]; exact hsp, fun rest' _ => ?_⟩
        rw [append_assoc]
        refine ⟨(hline rest').1, ?_⟩
        simp [(hline rest').2, if_pos hlf]
      · obtain ⟨c, hcut, hc, hstop⟩ := comment_split rest
        refine ⟨blanks ++ s :: c, ?_, fun rest' hpeek => ?_⟩
        · conv_lhs => rw [hsp, hcut]
          simp
        have hform : blanks ++ s :: c ++ rest' = blanks ++ s :: (c ++ rest') := by simp
        rw [hform]
        refine ⟨(hline _).1, ?_⟩
        simp only [(hline _).2, if_neg hlf]
        exact comment_append hc (by rw [hpeek]; exact hstop)

/-- A turn of the main loop depends on the symbols it takes and the byte after them. -/
lemma item_local {found : Option Item} (h : item cur text = .ok (found, rest)) (hrest : rest ≠ []) :
    ∃ c, text = c ++ rest ∧ ∀ rest', peek rest' = peek rest → ∃ found',
      item cur (c ++ rest') = .ok (found', rest') ∧ found'.bind assignment = found.bind assignment ∧
        cur.after found' = cur.after found := by
  cases found with
  | none =>
    obtain ⟨-, hcl, rfl⟩ := (item_cases h).resolve_right (by
      rintro ⟨s, tail, -, -, -, ⟨-, name, -, hgot⟩ | ⟨-, x, -, hgot⟩⟩ <;> cases hgot)
    obtain ⟨c, hcut, hc⟩ := leftAfter_local (some []) hcl hrest
    refine ⟨c, hcut, fun rest' hpeek => ⟨none, ?_, rfl, rfl⟩⟩
    obtain ⟨hcl', haf⟩ := hc rest' hpeek
    rw [item_closed hcl']
    exact congrArg (fun after => Except.ok (none, after)) haf
  | some found =>
    cases found with
    | header start stop name =>
      obtain ⟨-, c, s, rfl, -, -, -, hc⟩ := item_header h
      refine ⟨c ++ [s], by simp, fun rest' _ => ?_⟩
      obtain ⟨start', stop', hitem⟩ := hc rest'
      rw [append_assoc]
      exact ⟨_, hitem, rfl, rfl⟩
    | entry start valueStart stop lines name key value =>
      obtain ⟨rfl, -, blanks, letters, -, -, -, c, tail, rfl, -, hcl, rfl, hc, -⟩ := item_entry h
      obtain ⟨d, hcut, hd⟩ := leftAfter_local value hcl hrest
      refine ⟨blanks ++ (letters ++ (c ++ d)), ?_, fun rest' hpeek => ?_⟩
      · conv_lhs => rw [hcut]
        simp
      obtain ⟨hcl', haf⟩ := hd rest' hpeek
      obtain ⟨found', hitem, hass⟩ := hc _ hcl'
      refine ⟨some found', ?_, hass, ?_⟩
      · have hform : blanks ++ (letters ++ (c ++ d)) ++ rest' = blanks ++
            (letters ++ (c ++ (d ++ rest'))) := by simp
        rw [hform, hitem, haf]
      · cases found' with
        | header _ _ _ => cases hass
        | entry _ _ _ _ _ _ _ => rfl

/-- The main loop reaches an item after others, and gets there over any text that begins alike. -/
def Reached (cur : SectionName) (text : List Symbol) (pre : List Item) (found : Item) (later : List Item) : Prop :=
  ∃ c rest after, text = c ++ rest ∧ item (contextAfter cur pre) rest = .ok (some found, after) ∧
    items ((contextAfter cur pre).after (some found)) after = .ok later ∧
    ∀ rest', peek rest' = peek rest → assignments cur (c ++ rest') =
      (assignments (contextAfter cur pre) rest').map (pre.filterMap assignment ++ ·)

lemma items_reach {pre later : List Item} {found : Item}
    (h : items cur text = .ok (pre ++ found :: later)) : Reached cur text pre found later := by
  induction hlen : text.length using Nat.strong_induction_on generalizing text cur pre with
  | _ n ih =>
  have htext : text ≠ [] := by
    rintro rfl
    rw [items_nil] at h
    cases pre <;> cases h
  rw [items_eq] at h
  obtain ⟨⟨turn, rest⟩, hitem, h⟩ := bind_ok.mp h
  obtain ⟨more, hmore, h⟩ := bind_ok.mp h
  dsimp only at hmore h
  have hlt : rest.length < n := hlen ▸ (item_suffix hitem).2 htext
  have hlist : turn.toList ++ more = pre ++ found :: later := Except.ok.inj h
  -- The first turn finds the item itself, or an earlier one, or nothing.
  have hgo : ∀ pre', more = pre' ++ found :: later →
      pre.filterMap assignment = (turn.bind assignment).toList ++ pre'.filterMap assignment →
      contextAfter cur pre = contextAfter (cur.after turn) pre' →
      Reached cur text pre found later := by
    intro pre' hbf hasg hcon
    rw [hbf] at hmore
    have hrest : rest ≠ [] := by
      rintro rfl
      rw [items_nil] at hmore
      cases pre' <;> cases hmore
    obtain ⟨c, rest₁, after, hcut, hgot, hlat, hall⟩ := ih rest.length hlt hmore rfl
    obtain ⟨c₀, rfl, hc₀⟩ := item_local hitem hrest
    refine ⟨c₀ ++ c, rest₁, after, by rw [hcut, append_assoc], by rw [hcon]; exact hgot,
      by rw [hcon]; exact hlat, fun rest' hpeek => ?_⟩
    obtain ⟨turn', hitem', hsame, hcon'⟩ := hc₀ (c ++ rest') (by rw [hcut]; exact peek_append hpeek c)
    rw [append_assoc, assignments_of_item hitem', hcon', hall rest' hpeek, hsame, hasg, hcon,
      Option.map_map]
    congr 1
    funext more
    simp
  cases turn with
  | none => exact hgo pre hlist rfl rfl
  | some first =>
    cases pre with
    | nil =>
      obtain ⟨rfl, rfl⟩ := cons.inj hlist
      refine ⟨[], text, rest, rfl, hitem, hmore, fun rest' _ => ?_⟩
      simp [contextAfter]
    | cons first' pre =>
      obtain ⟨rfl, hmore'⟩ := cons.inj hlist
      refine hgo pre hmore' ?_ rfl
      cases hass : assignment first with
      | none | some content => simp [hass]

end Items

end Girt.Proofs
