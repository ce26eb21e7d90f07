import Girt.Proofs.ConfigLayout
import Girt.Proofs.ConfigWritten

/-!
# Entries that are added

A new entry belongs to its section if nothing but blanks and a comment follows its anchor on the line.
-/

namespace Girt.Proofs
open ByteLib LineEnds Girt.Config List

section Lines

variable {current : SectionName} {l r tail : List Symbol} {nl : Symbol}

lemma line_split (tail : List Symbol) : OnLine tail ∨
    ∃ l nl r, tail = l ++ nl :: r ∧ OnLine l ∧ nl.byte = lf := by
  obtain ⟨l, hcut, hl, hstop⟩ := comment_split tail
  cases hrest : comment tail with
  | nil =>
    left
    rw [hrest, append_nil] at hcut
    rw [hcut]
    exact hl
  | cons nl r =>
    right
    rw [hrest] at hcut hstop
    exact ⟨l, nl, r, hcut, hl, hstop _ rfl⟩

lemma not_blank_of_lf (hnl : nl.byte = lf) : isBlank nl.byte = false := by
  rw [hnl]
  decide

lemma closed_line (hnl : nl.byte = lf) (r : List Symbol) : Closed (l ++ nl :: r) ↔ Closed l := by
  cases hrest : space l with
  | nil =>
    obtain ⟨blanks, hsp, hgap, -⟩ := space_split l
    rw [hrest, append_nil] at hsp
    unfold Closed
    rw [hrest, hsp, space_append hgap (by rintro b ⟨⟩; exact not_blank_of_lf hnl)]
    exact iff_of_true (by rintro b ⟨⟩; exact Or.inl hnl) (fun b hb => by cases hb)
  | cons s rest =>
    unfold Closed
    rw [space_of_cons hrest, hrest]
    rfl

lemma items_line (hl : OnLine l) (hnl : nl.byte = lf) (hcl : Closed l) :
    items current (l ++ nl :: r) = items current r := by
  have hbl := not_blank_of_lf hnl
  have hfirst : items current (nl :: r) = items current r := by
    rw [← items_closed ((closed_cons hbl).mpr (Or.inl hnl)), afterClose_cons hbl, if_pos hnl]
  rw [← items_closed ((closed_line hnl r).mpr hcl)]
  unfold afterClose
  cases hrest : space l with
  | nil =>
    obtain ⟨blanks, hsp, hgap, -⟩ := space_split l
    rw [hrest, append_nil] at hsp
    rw [hsp, space_append hgap (by rintro b ⟨⟩; exact hbl)]
    simp only [if_pos hnl]
  | cons s rest =>
    have hmem : OnLine (s :: rest) := fun t ht => hl t ((space_suffix l).subset (by rw [hrest]; exact ht))
    have hcom : comment (rest ++ nl :: r) = nl :: r :=
      comment_append (fun t ht => hmem t (.tail _ ht)) (by rintro b ⟨⟩; exact hnl)
    rw [space_of_cons hrest]
    simp only [if_neg (hmem s mem_cons_self), hcom]
    exact hfirst

lemma items_last_line (hl : OnLine l) (hcl : Closed l) : items current l = .ok [] := by
  have haf : afterClose l = [] := by
    unfold afterClose
    cases hrest : space l with
    | nil => rfl
    | cons s rest =>
      have hmem : OnLine (s :: rest) := fun t ht => hl t ((space_suffix l).subset (by rw [hrest]; exact ht))
      have hcom := @comment_append [] rest (fun t ht => hmem t (.tail _ ht)) (fun b hb => by cases hb)
      rw [append_nil] at hcom
      simp only [if_neg (hmem s mem_cons_self), hcom]
  rw [← items_closed hcl, haf, items_nil]

lemma closed_of_items (h : items current tail = .ok []) : Closed tail := by
  rw [items_eq, bind_ok] at h
  obtain ⟨⟨found, after⟩, hitem, h⟩ := h
  obtain ⟨more, -, h⟩ := bind_ok.mp h
  rcases item_cases hitem with ⟨-, hcl, -⟩ | ⟨_, _, -, -, -, ⟨-, _, -, rfl⟩ | ⟨-, _, -, rfl⟩⟩
  · exact hcl
  · cases h
  · cases h

lemma closed_init (h : Closed (l ++ [.plain cr])) : Closed l := by
  intro b hb
  obtain ⟨s, rest, hs, rfl⟩ := peek_eq_some hb
  refine h s.byte ?_
  rw [space_of_cons hs]
  rfl

lemma items_quiet (h : items current tail = .ok []) :
    ∃ done l, tail = done ++ l ∧ OnLine l ∧ Closed l ∧ (∀ s ∈ done.getLast?, s.byte = lf) ∧
      (done ≠ [] → ∀ r, Closed (done ++ r)) ∧ ∀ r, items current (done ++ r) = items current r := by
  induction hlen : tail.length using Nat.strong_induction_on generalizing tail with
  | _ n ih =>
    have hcl := closed_of_items h
    rcases line_split tail with hline | ⟨l, nl, r, rfl, hl, hnl⟩
    · exact ⟨[], tail, rfl, hline, hcl, (fun s hs => by cases hs), (absurd rfl ·), fun r => rfl⟩
    have hl' : Closed l := (closed_line hnl r).mp hcl
    rw [items_line hl hnl hl'] at h
    obtain ⟨done, l', rfl, hline, hcl', hlast, -, hdone⟩ := ih r.length (by
      rw [← hlen, length_append, length_cons]
      omega) h rfl
    refine ⟨l ++ nl :: done, l', by simp, hline, hcl', ?_, fun _ r' => ?_, fun r' => ?_⟩
    · intro s hs
      rw [getLast?_append_of_ne_nil _ (cons_ne_nil _ _), getLast?_cons] at hs
      cases hs
      cases hgone : done.getLast? with
      | none => exact hnl
      | some t => exact hlast t hgone
    · rw [append_assoc, cons_append]
      exact (closed_line hnl _).mpr hl'
    · rw [append_assoc, cons_append, items_line hl hnl hl', hdone]

end Lines

section Misplaced

variable {current : SectionName} {l u r : List Symbol} {nl : Symbol} {found : List Item}

/-- What may follow the part of a line that is kept: the end of the line, the end of the text, or a
carriage return at the end of the text. -/
def Cut (u : List Symbol) : Prop := u = [] ∨ u = [.plain cr] ∨ ∃ nl r, u = nl :: r ∧ nl.byte = lf

lemma header_within {c rest : List Symbol} {s : Symbol} (hu : Cut u) (h : l ++ u = c ++ s :: rest)
    (hc : OnLine c) (hs : s.byte = 93) : ∃ l', l = c ++ s :: l' ∧ rest = l' ++ u := by
  rcases append_eq_append_iff.mp h with ⟨a, rfl, hu'⟩ | ⟨a, rfl, hrest⟩
  · -- The kept part ends before the bracket.
    exfalso
    rcases hu with rfl | rfl | ⟨nl, r, rfl, hnl⟩
    · simp at hu'
    · cases a with
      | nil =>
        cases hu'
        exact absurd hs (by decide)
      | cons t a =>
        have hlen := congrArg length hu'
        simp at hlen
    · cases a with
      | nil =>
        cases hu'
        rw [hnl] at hs
        exact absurd hs (by decide)
      | cons t a =>
        cases hu'
        exact hc nl (by simp) hnl
  · cases a with
    | nil =>
      rcases hu with rfl | rfl | ⟨nl, r, rfl, hnl⟩
      · cases hrest
      · cases hrest
        exact absurd hs (by decide)
      · cases hrest
        rw [hnl] at hs
        exact absurd hs (by decide)
    | cons t a =>
      cases hrest
      exact ⟨a, rfl, rfl⟩

lemma bracket_of_open (hu : Cut u) (h : items current (l ++ u) = .ok found)
    (hopen : ¬ Closed (l ++ u)) (hgot : ∀ x ∈ found.head?, assignment x = none) :
    peek (space l) = some 91 := by
  rw [items_eq, bind_ok] at h
  obtain ⟨⟨first, after⟩, hitem, h⟩ := h
  obtain ⟨more, -, h⟩ := bind_ok.mp h
  rcases item_cases hitem with ⟨-, hcl, -⟩ | ⟨s, rest, hsp, hlf, -, ⟨hbra, -⟩ | ⟨-, entry, hen, rfl⟩⟩
  · exact absurd hcl hopen
  · cases hl : space l with
    | nil =>
      -- What follows the kept part does not begin with a bracket.
      exfalso
      obtain ⟨blanks, hcut, hgap, -⟩ := space_split l
      rw [hl, append_nil] at hcut
      rw [hcut, space_append_space hgap] at hsp
      rcases hu with rfl | rfl | ⟨nl, r, rfl, hnl⟩
      · cases hsp
      · cases hsp
        exact absurd hbra (by decide)
      · rw [space_cons_of_not_blank (not_blank_of_lf hnl)] at hsp
        cases hsp
        exact hlf hnl
    | cons t rest' =>
      rw [space_of_cons hl] at hsp
      cases hsp
      exact congrArg some hbra
  · cases h
    obtain ⟨key, value, hass⟩ := entry_assignment hen
    rw [hgot entry rfl] at hass
    cases hass

/-- What is read first on a line to which lines were added: an entry of the section before the line
or of one whose header was on the line before. -/
lemma first_on_line {P : SectionName → Prop} (hP : P current ∨ peek (space l) = some 91)
    (hcur : current.sectionBytes ≠ []) (hl : OnLine l)
    (hnl : nl.byte = lf) (hu : Cut u) (h : items current (l ++ u) = .ok found)
    (hgot : ∀ start stop name, .header start stop name ∈ found → P name)
    (hr : ∀ name, name.sectionBytes ≠ [] → ∀ all, assignments name r = some all → ∃ x more, all = x :: more ∧ x.1 = name)
    {all : List Assignment} (hall : assignments current (l ++ nl :: r) = some all) :
    ∃ x more, all = x :: more ∧ P x.1 := by
  induction hlen : l.length using Nat.strong_induction_on generalizing l current found with
  | _ n ih =>
    by_cases hcl : Closed l
    · rw [assignments, items_line hl hnl hcl] at hall
      obtain ⟨x, more, hx, hname⟩ := hr current hcur all hall
      refine ⟨x, more, hx, hname ▸ hP.resolve_right (fun hbra => ?_)⟩
      exact absurd (hcl 91 hbra) (by decide)
    · obtain ⟨s, rest, hsp, hopen, hcom⟩ : ∃ s rest, space l = s :: rest ∧ ¬ s.byte = lf ∧
        ¬ isCommentStart s.byte := by
        unfold Closed at hcl
        push Not at hcl
        obtain ⟨b, hb, hlf, hcom⟩ := hcl
        obtain ⟨s, rest, hsp, rfl⟩ := peek_eq_some hb
        exact ⟨s, rest, hsp, hlf, hcom⟩
      have hspa := space_of_cons hsp
      by_cases hhd : s.byte = 91
      · -- A header that is on the line takes the place of the section.
        rw [items_eq, bind_ok] at h
        obtain ⟨⟨first, after⟩, hitem, h⟩ := h
        obtain ⟨more, hmore, h⟩ := bind_ok.mp h
        cases h
        have hitem' := hitem
        rw [item, hspa] at hitem'
        simp only [itemAt, if_neg hopen, if_neg hcom, if_pos hhd] at hitem'
        obtain ⟨⟨name, after'⟩, -, hitem'⟩ := bind_ok.mp hitem'
        cases hitem'
        obtain ⟨hne, c, t, htext, hc, ht, -, hread⟩ := item_header hitem
        obtain ⟨l', rfl, rfl⟩ := header_within hu htext hc ht
        obtain ⟨start', stop', hnew⟩ := hread (l' ++ nl :: r)
        rw [append_assoc, cons_append, assignments_of_item hnew] at hall
        obtain ⟨all', hall', rfl⟩ := Option.map_eq_some_iff.mp hall
        have hl' : OnLine l' := fun t' ht' => hl t' (by simp [ht'])
        exact ih l'.length (by
          rw [← hlen, length_append, length_cons]
          omega) (Or.inl (hgot _ _ name (mem_append_left more (Option.mem_toList.mpr rfl)))) hne hl' hmore
          (fun start stop name' hmem => hgot start stop name' (mem_append_right _ hmem)) hall' rfl
      · -- Otherwise an entry of the section follows.
        have hP' : P current := hP.resolve_right (fun hbra => by
          rw [hsp] at hbra
          exact hhd (Option.some.inj hbra))
        cases hitem : item current (l ++ nl :: r) with
        | error e =>
          rw [assignments, items_eq, hitem] at hall
          cases hall
        | ok turn =>
          rw [assignments_of_item hitem] at hall
          obtain ⟨all', -, rfl⟩ := Option.map_eq_some_iff.mp hall
          rw [item, hspa] at hitem
          simp only [itemAt, if_neg hopen, if_neg hcom, if_neg hhd] at hitem
          obtain ⟨⟨entry, after'⟩, hen, hitem⟩ := bind_ok.mp hitem
          cases hitem
          obtain ⟨key, value, hass⟩ := entry_assignment hen
          exact ⟨_, _, by rw [Option.bind_some, hass]; rfl, hP'⟩

end Misplaced

section Anchored

variable {current : SectionName} {text : List Symbol} {before later : List Item} {x : Item}

/-- The parser after an item: it has read the symbols up to the end of the item, and reads on over
any text there, or any end of a line after an entry. -/
lemma items_after (h : items current text = .ok (before ++ x :: later)) : ∃ c tail, c ≠ [] ∧ text = c ++ tail ∧
    stopOf x = widths tail ∧ items (contextAfter current (before ++ [x])) tail = .ok later ∧
    ((assignment x).isSome → Closed tail) ∧
    ∀ tail', ((assignment x).isSome → Closed tail') → assignments current (c ++ tail') =
      (assignments (contextAfter current (before ++ [x])) tail').map
        (fun more => (before ++ [x]).filterMap assignment ++ more) := by
  obtain ⟨c₀, rest, after, rfl, hitem, hlat, hrea⟩ := items_reach h
  have hcon : contextAfter current (before ++ [x]) = (contextAfter current before).after (some x) := by
    unfold contextAfter
    rw [foldl_append]
    rfl
  rw [← hcon] at hlat
  cases x with
  | header start stop name =>
    obtain ⟨-, c, s, rfl, -, -, rfl, hc⟩ := item_header hitem
    refine ⟨c₀ ++ (c ++ [s]), after, by simp, by simp, rfl, hlat, (fun hsome => by cases hsome), fun tail' _ => ?_⟩
    obtain ⟨start', stop', hnew⟩ := hc tail'
    have hform : c₀ ++ (c ++ [s]) ++ tail' = c₀ ++ (c ++ s :: tail') := by simp
    rw [hform, hrea _ (peek_append (by simp) c), assignments_of_item hnew, hcon, filterMap_append,
      Option.map_map]
    congr 1
    funext more
    simp [assignment]
  | entry start valueStart stop lines name key value =>
    obtain ⟨rfl, -, blanks, letters, -, hlet, -, c, tail, rfl, rfl, hcl, rfl, hc, -⟩ := item_entry hitem
    have hne := hlet.ne_nil
    refine ⟨c₀ ++ (blanks ++ (letters ++ c)), tail,
      by simp [hne], by simp, rfl, ?_, fun _ => hcl, fun tail' hcl' => ?_⟩
    · rw [← items_leftAfter value hcl]
      exact hlat
    obtain ⟨found, hnew, hass⟩ := hc tail' (hcl' rfl)
    have hform : c₀ ++ (blanks ++ (letters ++ c)) ++ tail' = c₀ ++
        (blanks ++ (letters ++ (c ++ tail'))) := by simp
    have hsame : (contextAfter current before).after (some found) = contextAfter current before := by
      cases found with
      | header _ _ _ => cases hass
      | entry _ _ _ _ _ _ _ => rfl
    have hsame' : contextAfter current (before ++
      [.entry start valueStart (widths tail) lines (contextAfter current before) key value]) =
        contextAfter current before := hcon
    rw [hform, hrea, assignments_of_item hnew, hsame, hsame', Option.bind_some, hass, Option.map_map]
    · have hits : assignments (contextAfter current before) (leftAfter value tail') =
          assignments (contextAfter current before) tail' := by
        rw [assignments, items_leftAfter value (hcl' rfl)]
        rfl
      congr 1
      funext more
      simp [assignment]
    · cases letters with
      | nil => exact absurd rfl hne
      | cons s letters => exact peek_append (by simp) blanks

end Anchored

end Girt.Proofs
