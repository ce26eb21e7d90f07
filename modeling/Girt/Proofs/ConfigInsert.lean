import Girt.Proofs.ConfigSection

/-!
# Entries that are added to a section

A new entry belongs to its section if its line begins where the line of the anchor is closed.
-/

namespace Girt.Proofs
open ByteLib LineEnds Girt.Config List

/-- The parser after the last item of the last section that matches. -/
structure Anchored (doc : Document) (matching : SectionName → Bool) (pre : List Item) (x : Item) (later : List Item)
    (name : SectionName) (c tail : List Symbol) : Prop where
  items : doc.items = pre ++ x :: later
  nonempty : c ≠ []
  text : textOf doc.bytes = c ++ tail
  stop : stopOf x = widths tail
  rest : Config.items name tail = .ok later
  closed : (assignment x).isSome = true → Closed tail
  read : ∀ tail', ((assignment x).isSome = true → Closed tail') → assignments outside (c ++ tail') =
    (assignments name tail').map (fun more => (pre ++ [x]).filterMap assignment ++ more)
  named : name.sectionBytes ≠ []
  matches_name : matching name = true
  first : ∀ y ∈ later.head?, assignment y = none
  others : ∀ start stop other, .header start stop other ∈ later → matching other = false

/-- The document whose bytes are given has one more entry before `later`. -/
def Inserted (pre later : List Item) (name : SectionName) (key value bytes : Bytes) : Prop :=
  ∃ doc', Document.parse bytes = .ok doc' ∧ contents doc' =
    pre.filterMap assignment ++ (name, key, some value) :: later.filterMap assignment

/-- Nothing but blanks and a comment follow the anchor on its line, and if the document ends with the
anchor, it does so neither with a line feed nor with a carriage return. -/
def Fits (doc : Document) (anchor : Nat) : Prop :=
  Closed (symbols (doc.bytes.drop anchor)) ∧
    (anchor = doc.bytes.length → doc.bytes.getLast? ≠ some lf ∧ doc.bytes.getLast? ≠ some cr)

section Insertion

variable {doc : Document} {matching : SectionName → Bool} {pre later : List Item} {x : Item} {name : SectionName}
  {c tail l r u : List Symbol} {nl : Symbol} {key value bytes : Bytes}

lemma length_bytes (h : textOf doc.bytes = c ++ tail) :
    widths c + widths tail ≤ doc.bytes.length := by
  have hle := widths_textOf_le doc
  rw [h, widths_append] at hle
  exact hle

lemma findIdx?_onLine (hl : OnLine l) : (spell l).findIdx? (· = lf) = none := by
  rw [findIdx?_eq_none_iff]
  intro b hb
  rw [decide_eq_false_iff_not]
  rintro rfl
  obtain ⟨s, hs, hbyte⟩ := lf_mem_spell.mp hb
  exact hl s hs hbyte

lemma lineEnd_of_newline (h : textOf doc.bytes = c ++ (l ++ nl :: r)) (hl : OnLine l)
    (hnl : nl.byte = lf) :
    doc.lineEnd (doc.position (widths (l ++ nl :: r))) = doc.position (widths r) := by
  obtain ⟨hdrop, -, -⟩ := textOf_split h
  have hfind : (spell (l ++ nl :: r)).findIdx? (· = lf) = some (widths l + nl.width - 1) := by
    rw [spell_append, findIdx?_append, findIdx?_onLine hl, Option.none_or, length_spell, spell_cons]
    cases nl with
    | plain b =>
      obtain rfl : b = lf := hnl
      simp [Symbol.spell, Symbol.width, findIdx?_cons]
    | crlf =>
      simp [Symbol.spell, Symbol.width, findIdx?_cons, lf, cr]
      omega
  have hlen := length_bytes h
  have hpos := nl.width_pos
  rw [Document.lineEnd, hdrop, hfind, Option.map_some, Option.getD_some]
  unfold Document.position
  rw [widths_append, widths_cons] at hlen ⊢
  omega

lemma lineEnd_of_onLine (h : textOf doc.bytes = c ++ tail) (htail : OnLine tail) :
    doc.lineEnd (doc.position (widths tail)) = doc.bytes.length := by
  obtain ⟨hdrop, -, -⟩ := textOf_split h
  rw [Document.lineEnd, hdrop, findIdx?_onLine htail]
  rfl

/-- The bytes of a document with a line after the line of a position. -/
def insertedBytes (doc : Document) (anchor : Nat) (line : Bytes) : Bytes :=
  let insertAt := doc.lineEnd anchor
  splice doc.bytes ⟨insertAt, insertAt⟩
    ((if insertAt = doc.bytes.length ∧ doc.bytes.getLast? ≠ some lf then [lf] else []) ++ line)

variable (h : Anchored doc matching pre x later name c tail)
include h

lemma contents_anchored :
    contents doc = (pre ++ [x]).filterMap assignment ++ later.filterMap assignment := by
  rw [contents_eq, h.items, ← filterMap_append]
  simp

variable (hkey : ValidName key) (hval : 0 ∉ value)
include hkey hval

lemma inserted_closed (hl : OnLine l) (hcl : Closed l) (hnl : nl.byte = lf)
    (hr : items name r = .ok later)
    (htext : textOf bytes = c ++ (l ++ nl :: (symbols (lineText key value) ++ r))) :
    Inserted (pre ++ [x]) later name key value bytes ↔ ¬ LosesReturn value := by
  obtain ⟨read, hread, hline⟩ := lineText_read hkey hval
  have hnew : assignments outside (textOf bytes) = some ((pre ++ [x]).filterMap assignment ++
      (name, key, some read) :: later.filterMap assignment) := by
    have hen : assignments name (l ++ nl :: (symbols (lineText key value) ++ r)) =
        some ((name, key, some read) :: later.filterMap assignment) := by
      have hrest : assignments name r = some (later.filterMap assignment) := by
        rw [assignments, hr]
        rfl
      rw [assignments, items_line hl hnl hcl, ← assignments, hline name r h.named, hrest]
      rfl
    rw [htext, h.read _ (fun _ => (closed_line hnl _).mpr hcl), hen]
    rfl
  rw [← hread, Inserted, parse_iff, hnew]
  simp

lemma not_inserted_of_open (htail : tail = l ++ u) (hu : Cut u) (hopen : ¬ Closed tail)
    (hl : OnLine l) (hnl : nl.byte = lf)
    (htext : textOf bytes = c ++ (l ++ nl :: (symbols (lineText key value) ++ r))) :
    ¬ Inserted (pre ++ [x]) later name key value bytes := by
  subst htail
  rw [Inserted, parse_iff, htext, h.read _ (fun hsome => absurd (h.closed hsome) hopen)]
  intro hasg
  obtain ⟨all, hall, hsame⟩ := Option.map_eq_some_iff.mp hasg
  obtain ⟨read, -, hline⟩ := lineText_read hkey hval
  have hfirst := @first_on_line name l u (symbols (lineText key value) ++ r) nl later (matching · = false)
    (Or.inr (bracket_of_open hu h.rest hopen h.first)) h.named hl hnl hu h.rest h.others
    (by
      intro other hoth all' hall'
      rw [hline other r hoth] at hall'
      obtain ⟨more, -, rfl⟩ := Option.map_eq_some_iff.mp hall'
      exact ⟨_, more, rfl, rfl⟩) all hall
  obtain ⟨y, more, rfl, hy⟩ := hfirst
  obtain ⟨rfl, -⟩ := cons.inj (append_cancel_left hsame)
  rw [h.matches_name] at hy
  cases hy

lemma inserted_at_end (htail : OnLine tail) :
    Inserted (pre ++ [x]) later name key value (doc.bytes ++
      ((if doc.bytes.getLast? ≠ some lf then [lf] else []) ++ lineText key value)) ↔
      (Closed tail ∧ (tail = [] → doc.bytes.getLast? ≠ some lf ∧ doc.bytes.getLast? ≠ some cr)) ∧
        ¬ LosesReturn value := by
  have hhead : ∀ y : Bytes, (lf :: y).head? ≠ some 0xef := by
    intro y
    rw [head?_cons]
    decide
  obtain ⟨init, s, hlast⟩ : ∃ init s, textOf doc.bytes = init ++ [s] := by
    rcases eq_nil_or_concat' (textOf doc.bytes) with hnil | ⟨init, s, hcon⟩
    · rw [h.text] at hnil
      exact absurd (append_eq_nil_iff.mp hnil).1 h.nonempty
    · exact ⟨init, s, hcon⟩
  -- Where the line of the anchor is cut, and how the added line feed ends it.
  have hcut : doc.bytes.getLast? ≠ some lf → (tail ≠ [] ∨ doc.bytes.getLast? ≠ some cr) →
      ∃ l u nl, tail = l ++ u ∧ Cut u ∧ OnLine l ∧
      (Closed tail → Closed l) ∧ nl.byte = lf ∧ textOf (doc.bytes ++ ([lf] ++ lineText key value)) =
        c ++ (l ++ nl :: (symbols (lineText key value) ++ [])) := by
    intro hlf hcr
    by_cases hret : s = .plain cr
    · subst hret
      obtain ⟨l, t, hcon⟩ := (eq_nil_or_concat' tail).resolve_left
        (hcr.resolve_right (· ((ends_cr_iff hlast).mpr rfl)))
      have hpart := hlast
      rw [h.text, hcon, ← append_assoc] at hpart
      obtain ⟨hinit, hsame⟩ := append_inj' hpart rfl
      cases hsame
      refine ⟨l, [.plain cr], .crlf, hcon, Or.inr (Or.inl rfl), fun t ht => htail t (by rw [hcon]; simp [ht]),
        fun hcl => closed_init (hcon ▸ hcl), rfl, ?_⟩
      rw [singleton_append, textOf_append_return hlast, ← hinit, append_nil, append_assoc]
    · refine ⟨tail, [], .plain lf, (append_nil _).symm, Or.inl rfl, htail, id, rfl, ?_⟩
      rw [singleton_append, textOf_append_concat hlast hret (hhead _), symbols_lf, h.text,
        append_nil, append_assoc]
  have hends : doc.bytes.getLast? = some lf → tail = [] := by
    intro hlf
    by_contra hnil
    have hs := congrArg getLast? hlast
    rw [h.text, getLast?_append_of_ne_nil _ hnil, getLast?_concat] at hs
    exact htail s (mem_of_getLast? hs) ((ends_lf_iff hlast).mp hlf)
  by_cases hcl : Closed tail
  · obtain rfl : later = [] := by
      have hrest := h.rest
      rw [items_last_line htail hcl] at hrest
      cases hrest
      rfl
    by_cases hlf : doc.bytes.getLast? = some lf
    · -- The document ends with a continued value.
      have hs := (ends_lf_iff hlast).mp hlf
      have hnil := hends hlf
      refine iff_of_false ?_ (fun hfits => (hfits.1.2 hnil).1 hlf)
      rw [Inserted, parse_iff]
      intro hasg
      obtain ⟨text, nl, -, hsym, htext, hnl, -⟩ := symbols_lineText hkey hval
      have hstop := h.stop
      rw [hnil, widths_nil] at hstop
      obtain ⟨-, hlen⟩ := last_newline_cases h.items hstop hlast hs
      have honl : OnLine (plains (lineStart key ++ text)) := by
        refine onLine_plains ?_
        rw [mem_append, not_or]
        exact ⟨lf_not_mem_lineStart hkey, htext⟩
      rw [if_neg (not_not.mpr hlf), nil_append, textOf_append_concat hlast, hsym] at hasg
      · have hsame := hlen _ nl _ honl hnl hasg
        rw [contents_anchored h, length_append, length_append] at hsame
        simp at hsame
      · rintro rfl
        exact absurd hs (by decide)
      · have htab : (lineText key value).head? = some 9 := rfl
        rw [htab]
        decide
    · rw [if_pos hlf]
      by_cases hcr : tail ≠ [] ∨ doc.bytes.getLast? ≠ some cr
      · obtain ⟨l, u, nl, -, -, hl, hcl', hnl, htext⟩ := hcut hlf hcr
        rw [inserted_closed h hkey hval hl (hcl' hcl) hnl (items_nil name) htext]
        have hfits : Closed tail ∧ (tail = [] → doc.bytes.getLast? ≠ some lf ∧ doc.bytes.getLast? ≠ some cr) :=
          ⟨hcl, fun hnil => ⟨hlf, hcr.resolve_left (· hnil)⟩⟩
        exact (and_iff_right hfits).symm
      · -- The line feed takes the carriage return of the last value.
        push Not at hcr
        refine iff_of_false ?_ (fun hfits => (hfits.1.2 hcr.1).2 hcr.2)
        rw [Inserted, parse_iff]
        intro hasg
        obtain rfl := (ends_cr_iff hlast).mp hcr.2
        have hstop := h.stop
        rw [hcr.1, widths_nil] at hstop
        obtain ⟨hsome, hlost⟩ := last_return_cases h.items hstop hlast
        rw [singleton_append, textOf_append_return hlast] at hasg
        have hdiff := hlost _ _ hasg
        obtain ⟨content, hx⟩ := Option.isSome_iff_exists.mp hsome
        rw [contents_anchored h, filterMap_append, filterMap_cons_some hx] at hdiff
        exact hdiff (by simp)
  · refine iff_of_false ?_ (hcl ·.1.1)
    have hnil : tail ≠ [] := by
      rintro rfl
      exact hcl (fun b hb => by cases hb)
    have hlf : doc.bytes.getLast? ≠ some lf := fun hlf => hnil (hends hlf)
    obtain ⟨l, u, nl, htail', hu, hl, -, hnl, htext⟩ := hcut hlf (Or.inl hnil)
    rw [if_pos hlf]
    exact not_inserted_of_open h hkey hval htail' hu hcl hl hnl htext

lemma inserted_iff : Inserted (pre ++ [x]) later name key value (insertedBytes doc (doc.position (stopOf x)) (lineText key value)) ↔
      Fits doc (doc.position (stopOf x)) ∧ ¬ LosesReturn value := by
  have hlen := length_bytes h.text
  have hc := widths_pos h.nonempty
  have htail : symbols (doc.bytes.drop (doc.position (widths tail))) = tail := by
    rw [(textOf_split h.text).1]
    exact (symbols_eq_append (show symbols _ = _ from h.text)).2.2
  have hfits : Fits doc (doc.position (stopOf x)) ↔
      Closed tail ∧ (tail = [] → doc.bytes.getLast? ≠ some lf ∧ doc.bytes.getLast? ≠ some cr) := by
    have hend : doc.position (widths tail) = doc.bytes.length ↔ tail = [] := by
      constructor
      · intro hpos
        refine eq_nil_of_widths ?_
        unfold Document.position at hpos
        omega
      · rintro rfl
        exact Nat.sub_zero _
    unfold Fits
    rw [h.stop, htail, hend]
  rw [hfits, insertedBytes]
  rcases line_split tail with honl | ⟨l, nl, r, rfl, hl, hnl⟩
  · rw [h.stop, lineEnd_of_onLine h.text honl, splice]
    simp only [take_length, drop_length, append_nil, true_and]
    exact inserted_at_end h hkey hval honl
  rw [h.stop, lineEnd_of_newline h.text hl hnl, splice]
  have htext : textOf doc.bytes = (c ++ (l ++ [nl])) ++ r := by
    rw [h.text]
    simp
  have hending : ¬ (doc.position (widths r) = doc.bytes.length ∧ doc.bytes.getLast? ≠ some lf) := by
    rintro ⟨hpos, hlf⟩
    have hr : r = [] := by
      refine eq_nil_of_widths ?_
      unfold Document.position at hpos
      omega
    subst hr
    rw [append_nil, ← append_assoc] at htext
    exact hlf ((ends_lf_iff htext).mpr hnl)
  obtain ⟨hdrop, -, hrep⟩ := textOf_split htext
  have hjoin : ¬ ((c ++ (l ++ [nl])).getLast? = some (.plain cr) ∧
    (lineText key value ++ spell r).head? = some lf) := by
    rw [← append_assoc, getLast?_concat]
    rintro ⟨hsame, -⟩
    cases hsame
    exact absurd hnl (by decide)
  have hlast : ¬ ((lineText key value).getLast? = some cr ∧ (spell r).head? = some lf) := by
    rw [lineText, getLast?_concat]
    rintro ⟨hsame, -⟩
    exact absurd hsame (by decide)
  have hr : symbols (spell r) = r := (symbols_eq_append (show symbols _ = _ from htext)).2.2
  have hnew := hrep (by simp) (lineText key value ++ spell r) hjoin
  rw [symbols_append hlast, hr] at hnew
  have hform : c ++ (l ++ [nl]) ++ (symbols (lineText key value) ++ r) =
      c ++ (l ++ nl :: (symbols (lineText key value) ++ r)) := by simp
  rw [hform] at hnew
  rw [if_neg hending, nil_append, hdrop, append_assoc]
  have hne : l ++ nl :: r ≠ [] := by simp
  by_cases hcl : Closed l
  · have hrest := h.rest
    rw [items_line hl hnl hcl] at hrest
    rw [inserted_closed h hkey hval hl hcl hnl hrest hnew]
    have hfits' : Closed (l ++ nl :: r) ∧ (l ++ nl :: r = [] →
        doc.bytes.getLast? ≠ some lf ∧ doc.bytes.getLast? ≠ some cr) :=
      ⟨(closed_line hnl r).mpr hcl, fun hnil => absurd hnil hne⟩
    exact (and_iff_right hfits').symm
  · have hopen : ¬ Closed (l ++ nl :: r) := fun hcl' => hcl ((closed_line hnl r).mp hcl')
    exact iff_of_false (not_inserted_of_open h hkey hval rfl (Or.inr (Or.inr ⟨nl, r, rfl, hnl⟩))
      hopen hl hnl hnew)
      (hopen ·.1.1)

end Insertion

end Girt.Proofs
