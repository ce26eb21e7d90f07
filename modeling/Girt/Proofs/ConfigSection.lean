import Girt.Proofs.ConfigEnd

/-!
# Sections at the end of a document

The line feeds before a new section close the last line, unless a carriage return ends the last value there.
-/

namespace Girt.Proofs
open ByteLib LineEnds Girt.Config List

/-- The last value of a document ends with the carriage return at the end of its bytes. -/
def ReturnAtEnd (doc : Document) : Prop :=
  doc.bytes.getLast? = some cr ∧ ∃ span ∈ doc.entrySpans, span.value.stop = doc.bytes.length

def padding (bytes : Bytes) : Bytes :=
  let first := if bytes ≠ [] ∧ bytes.getLast? ≠ some lf then [lf] else []
  first ++ if [92, lf] <:+ bytes ++ first ∨ [92, cr, lf] <:+ bytes ++ first then [lf] else []

section Padding

variable {doc : Document} {before : List Item} {x : Item}

lemma document_end (doc : Document) :
    ∃ c tail cur, textOf doc.bytes = c ++ tail ∧ items cur tail = .ok [] ∧
      (c ≠ [] → ∃ before x, doc.items = before ++ [x] ∧ stopOf x = widths tail) ∧
      ∀ tail', (c ≠ [] → Closed tail') →
      assignments outside (c ++ tail') = (assignments cur tail').map (contents doc ++ ·) := by
  have hits := items_eq_ok doc
  rcases eq_nil_or_concat' doc.items with hnil | ⟨before, x, hcon⟩
  · rw [hnil] at hits
    refine ⟨[], textOf doc.bytes, outside, rfl, hits, fun hne => absurd rfl hne, fun tail' _ => ?_⟩
    rw [contents_eq, hnil, nil_append]
    simp
  · rw [hcon] at hits
    obtain ⟨c, tail, hne, htext, hstop, hlat, -, hread⟩ := items_after hits
    refine ⟨c, tail, _, htext, hlat, fun _ => ⟨before, x, hcon, hstop⟩, fun tail' hcl => ?_⟩
    rw [hread tail' (fun _ => hcl hne), contents_eq, hcon]

lemma isSome_of_stop {span : EntrySpan} (hspan : doc.entrySpan x = some span) :
    (assignment x).isSome ∧ span.value.stop = doc.position (stopOf x) := by
  cases x with
  | header _ _ _ => cases hspan
  | entry _ _ _ _ _ _ _ =>
    cases hspan
    exact ⟨rfl, rfl⟩

lemma returnAtEnd_iff :
    ReturnAtEnd doc ↔ ∃ before x init, doc.items = before ++ [x] ∧ stopOf x = 0 ∧
      textOf doc.bytes = init ++ [.plain cr] := by
  constructor
  · rintro ⟨hlast, span, hspan, hstop⟩
    obtain ⟨x, hx, hspan⟩ := mem_filterMap.mp hspan
    obtain ⟨init, s, htext⟩ := (eq_nil_or_concat' (textOf doc.bytes)).resolve_left fun hnil => by
      have hits := items_eq_ok doc
      rw [hnil, items_nil] at hits
      rw [← Except.ok.inj hits] at hx
      cases hx
    obtain rfl := (ends_cr_iff htext).mp hlast
    obtain ⟨before, later, hcut⟩ := append_of_mem hx
    obtain ⟨-, hval⟩ := isSome_of_stop hspan
    obtain ⟨hpai, hbound⟩ := items_bounds (items_eq_ok doc)
    have hx0 : stopOf x = 0 := by
      have hpos : 0 < doc.bytes.length := by
        rw [length_pos_iff]
        intro hnil
        rw [hnil] at hlast
        cases hlast
      rw [hval, Document.position] at hstop
      omega
    have hlat : later = [] := by
      rw [eq_nil_iff_forall_not_mem]
      intro y hy
      rw [hcut] at hpai hbound
      have hst := (pairwise_cons.mp (pairwise_append.mp hpai).2.1).1 y hy
      have hy' := (hbound y (by simp [hy])).2
      omega
    rw [hlat] at hcut
    exact ⟨before, x, init, hcut, hx0, htext⟩
  · rintro ⟨before, x, init, hits, hstop, htext⟩
    obtain ⟨hsome, -⟩ := last_return_cases hits hstop htext
    refine ⟨(ends_cr_iff htext).mpr rfl, ?_⟩
    rw [← @isSome_entrySpan doc x, Option.isSome_iff_exists] at hsome
    obtain ⟨span, hspan⟩ := hsome
    refine ⟨span, mem_filterMap.mpr ⟨x, by rw [hits]; simp, hspan⟩, ?_⟩
    rw [(isSome_of_stop hspan).2, hstop]
    exact Nat.sub_zero _

lemma padding_eq (bs : Bytes) : ∃ first second, (first = [] ∨ first = [lf]) ∧ (second = [] ∨ second = [lf]) ∧
    first = (if bs ≠ [] ∧ bs.getLast? ≠ some lf then [lf] else []) ∧ padding bs = first ++ second := by
  refine ⟨_, _, ?_, ?_, rfl, rfl⟩
  · exact (ite_eq_or_eq _ _ _).symm
  · exact (ite_eq_or_eq _ _ _).symm

lemma padding_of_continued {init : List Symbol} {t s : Symbol}
    (h : textOf doc.bytes = init ++ [t] ++ [s]) (ht : t.byte = 92) (hs : s.byte = lf) :
    padding doc.bytes = [lf] := by
  have hlast := (ends_lf_iff h).mpr hs
  obtain ⟨mark, hbs, -⟩ := bytes_eq doc
  have hsuf : [92, lf] <:+ doc.bytes ∨ [92, cr, lf] <:+ doc.bytes := by
    rw [hbs, h, Symbol.eq_plain ht (by decide)]
    cases s with
    | plain b =>
      obtain rfl : b = lf := hs
      exact Or.inl ⟨mark ++ spell init, by simp [Symbol.spell]⟩
    | crlf => exact Or.inr ⟨mark ++ spell init, by simp [Symbol.spell]⟩
  unfold padding
  simp [hlast, if_pos hsuf]

lemma items_second {second H : Bytes} (hsec : second = [] ∨ second = [lf]) (cur : SectionName) :
    items cur (symbols (second ++ H)) = items cur (symbols H) := by
  rcases hsec with rfl | rfl
  · rfl
  · rw [singleton_append, symbols_lf]
    exact items_line (l := []) (fun _ hs => absurd hs not_mem_nil) rfl (fun _ hb => by cases hb)

lemma head?_second {second H : Bytes} (hsec : second = [] ∨ second = [lf])
    (hH : H.head? = some 91) : (second ++ H).head? ≠ some 0xef := by
  rcases hsec with rfl | rfl
  · rw [nil_append, hH]
    decide
  · rw [singleton_append, head?_cons]
    decide

/-- What is read after the padding is read as after a closed line. -/
lemma assignments_padding {H : Bytes} (hH : H.head? = some 91) (hret : ¬ ReturnAtEnd doc) : ∃ cur,
    assignments outside (textOf (doc.bytes ++ (padding doc.bytes ++ H))) =
      (assignments cur (symbols H)).map (contents doc ++ ·) := by
  obtain ⟨c, tail, cur, htext, hqui, hits, hread⟩ := document_end doc
  obtain ⟨done, l, rfl, hl, hcl, hnew, hdone, hskip⟩ := items_quiet hqui
  obtain ⟨first, second, hfirst, hsec, hif, hpad⟩ := padding_eq doc.bytes
  refine ⟨cur, ?_⟩
  suffices ∃ tail', textOf (doc.bytes ++ (padding doc.bytes ++ H)) = c ++ tail' ∧ (c ≠ [] → Closed tail') ∧
      items cur tail' = items cur (symbols H) by
    obtain ⟨tail', htext', hcl', hits'⟩ := this
    rw [htext', hread tail' hcl', assignments, hits']
    rfl
  -- A line feed is added after `l₁`, and ends the line together with what `l` has beyond it.
  have hline : ∀ l₁ nl, OnLine l₁ → Closed l₁ → nl.byte = lf → ∀ y,
      textOf (doc.bytes ++ (padding doc.bytes ++ H)) = (c ++ done ++ l₁) ++ nl :: symbols y →
      items cur (symbols y) = items cur (symbols H) →
      ∃ tail', textOf (doc.bytes ++ (padding doc.bytes ++ H)) = c ++ tail' ∧ (c ≠ [] → Closed tail') ∧
        items cur tail' = items cur (symbols H) := by
    intro l₁ nl hl₁ hcl₁ hnl y htext' hy
    refine ⟨done ++ (l₁ ++ nl :: symbols y), by rw [htext']; simp, fun _ => ?_, ?_⟩
    · by_cases hne : done = []
      · rw [hne, nil_append]
        exact (closed_line hnl _).mpr hcl₁
      · exact hdone hne _
    · rw [hskip, items_line hl₁ hnl hcl₁, hy]
  rcases eq_nil_or_concat' (textOf doc.bytes) with hnil | ⟨init, s, hlast⟩
  · -- The document is empty.
    rw [hnil] at htext
    obtain ⟨rfl, htail⟩ := append_eq_nil_iff.mp htext.symm
    have hhead : (first ++ (second ++ H)).head? ≠ some 0xef := by
      rcases hfirst with rfl | rfl
      · rw [nil_append]
        exact head?_second hsec hH
      · rw [singleton_append, head?_cons]
        decide
    refine ⟨symbols (first ++ (second ++ H)), ?_, fun hne => absurd rfl hne, ?_⟩
    · rw [hpad, append_assoc, textOf_append hhead (by rw [hnil]; rintro ⟨hcr, -⟩; cases hcr), hnil]
    · rw [items_second hfirst, items_second hsec]
  · have hne : doc.bytes ≠ [] := by
      intro hbs
      rw [hbs] at hlast
      have hlen := congrArg length hlast
      simp [textOf, symbols] at hlen
    by_cases hs : s.byte = lf
    · have hfirst : padding doc.bytes = second := by
        rw [hpad, hif, if_neg (·.2 ((ends_lf_iff hlast).mpr hs)), nil_append]
      have hcr : s ≠ .plain cr := by
        rintro rfl
        exact absurd hs (by decide)
      have hl0 : l = [] := by
        rcases eq_nil_or_concat' l with rfl | ⟨l', t, rfl⟩
        · rfl
        rw [htext, ← append_assoc, ← append_assoc] at hlast
        obtain ⟨-, hsame⟩ := append_inj' hlast rfl
        cases hsame
        exact absurd hs (hl s (by simp))
      subst hl0
      rw [append_nil] at htext
      by_cases hdone0 : done = []
      · -- The last value is continued, so that a line feed is added.
        subst hdone0
        have hc : c ≠ [] := by
          rintro rfl
          rw [htext] at hlast
          simp at hlast
        obtain ⟨before, x, hits, hstop⟩ := hits hc
        obtain ⟨⟨init', t, rfl, ht⟩, -⟩ := last_newline_cases hits hstop hlast hs
        refine hline [] (.plain lf) hl hcl rfl H ?_ rfl
        rw [padding_of_continued hlast ht hs, textOf_append_concat hlast hcr (head?_second (Or.inr rfl) hH),
          singleton_append, symbols_lf, htext]
        simp
      · refine ⟨done ++ symbols (second ++ H), ?_, fun _ => hdone hdone0 _, ?_⟩
        · rw [hfirst, textOf_append_concat hlast hcr (head?_second hsec hH), htext, append_assoc]
        · rw [hskip, items_second hsec]
    · have hfirst : padding doc.bytes ++ H = lf :: (second ++ H) := by
        rw [hpad, hif, if_pos ⟨hne, hs ∘ (ends_lf_iff hlast).mp⟩]
        rfl
      have hhead : (lf :: (second ++ H)).head? ≠ some 0xef := by
        rw [head?_cons]
        decide
      by_cases hcr : s = .plain cr
      · -- The line feed joins the carriage return at the end of a comment.
        subst hcr
        have hl0 : l ≠ [] := by
          rintro rfl
          rw [append_nil] at htext
          rcases eq_nil_or_concat' done with rfl | ⟨done', t, rfl⟩
          · have hc : c ≠ [] := by
              rintro rfl
              rw [htext] at hlast
              simp at hlast
            obtain ⟨before, x, hits, hstop⟩ := hits hc
            exact hret (returnAtEnd_iff.mpr ⟨before, x, init, hits, hstop, hlast⟩)
          · rw [htext, ← append_assoc] at hlast
            obtain ⟨-, hsame⟩ := append_inj' hlast rfl
            cases hsame
            exact hs (hnew _ (by rw [getLast?_concat]; rfl))
        obtain ⟨l', t, rfl⟩ := (eq_nil_or_concat' l).resolve_left hl0
        have hlast' := hlast
        rw [htext, ← append_assoc, ← append_assoc] at hlast'
        obtain ⟨rfl, hsame⟩ := append_inj' hlast' rfl
        cases hsame
        refine hline l' .crlf (fun t ht => hl t (by simp [ht])) (closed_init hcl) rfl (second ++ H) ?_
          (items_second hsec cur)
        rw [hfirst, textOf_append_return hlast]
      · refine hline l (.plain lf) hl hcl rfl (second ++ H) ?_ (items_second hsec cur)
        rw [hfirst, textOf_append_concat hlast hcr hhead, symbols_lf, htext]
        simp

lemma padding_return {H : Bytes} (hret : ReturnAtEnd doc) {all : List Assignment}
    (h : assignments outside (textOf (doc.bytes ++ (padding doc.bytes ++ H))) = some all) :
    ∃ i < (contents doc).length, all[i]? ≠ (contents doc)[i]? := by
  obtain ⟨before, x, init, hits, hstop, htext⟩ := returnAtEnd_iff.mp hret
  obtain ⟨hsome, hlost⟩ := last_return_cases hits hstop htext
  obtain ⟨first, second, -, -, rfl, hpad⟩ := padding_eq doc.bytes
  have hends : doc.bytes ≠ [] ∧ doc.bytes.getLast? ≠ some lf := by
    rw [hret.1]
    refine ⟨?_, by decide⟩
    intro hnil
    have hcr := hret.1
    rw [hnil] at hcr
    cases hcr
  rw [hpad, if_pos hends, singleton_append, cons_append, textOf_append_return htext] at h
  refine ⟨_, ?_, hlost _ all h⟩
  obtain ⟨content, hx⟩ := Option.isSome_iff_exists.mp hsome
  rw [contents_eq, hits, filterMap_append, filterMap_cons_some hx]
  simp

end Padding

section Added

variable {doc : Document} {sec : Bytes} {sub : Option Bytes} {ents : List (Bytes × Bytes)}

def linesText (ents : List (Bytes × Bytes)) : Bytes := (ents.map (fun entry => lineText entry.1 entry.2)).flatten

lemma linesText_read {cur : SectionName} (hcur : cur.sectionBytes ≠ [])
    (hens : ∀ entry ∈ ents, ValidName entry.1 ∧ 0 ∉ entry.2) : ∃ all,
    assignments cur (symbols (linesText ents)) = some all ∧
      (all = ents.map (fun entry => (cur, entry.1, some entry.2)) ↔ ∀ entry ∈ ents, ¬ LosesReturn entry.2) := by
  induction ents with
  | nil => exact ⟨[], by rw [assignments]; exact congrArg _ (congrArg _ (items_nil cur)), by simp⟩
  | cons entry ents ih =>
    obtain ⟨hname, hval⟩ := hens entry (.head _)
    obtain ⟨all, hall, hiff⟩ := ih (fun other hoth => hens other (.tail _ hoth))
    obtain ⟨read, hread, hline⟩ := lineText_read hname hval
    have hcut : symbols (linesText (entry :: ents)) = symbols (lineText entry.1 entry.2) ++
        symbols (linesText ents) := by
      rw [linesText, map_cons, flatten_cons, ← linesText, symbols_append]
      rintro ⟨hlast, -⟩
      rw [lineText, getLast?_concat] at hlast
      cases hlast
    refine ⟨(cur, entry.1, some read) :: all, by rw [hcut, hline cur _ hcur, hall]; rfl, ?_⟩
    rw [map_cons, cons.injEq, hiff, forall_mem_cons, ← hread]
    simp

lemma appendSection_eq (hsec : ValidSection sec sub)
    (hens : ∀ entry ∈ ents, ValidName entry.1 ∧ 0 ∉ entry.2) :
    doc.appendSection sec sub ents = Document.parse (doc.bytes ++
      (padding doc.bytes ++ (91 :: headerRest sec sub ++ lf :: linesText ents))) := by
  have hlines : ents.mapM (fun entry : Bytes × Bytes => do
      validateVariableName entry.1
      assignmentLine entry.1 entry.2) = .ok (ents.map (fun entry => lineText entry.1 entry.2)) := by
    induction ents with
    | nil => rfl
    | cons entry ents ih =>
      obtain ⟨hname, hval⟩ := hens entry (.head _)
      rw [mapM_cons, bind_ok]
      refine ⟨lineText entry.1 entry.2, bind_ok.mpr ⟨(), validateVariableName_eq hname,
        assignmentLine_eq hval⟩, ?_⟩
      rw [ih (fun other hoth => hens other (mem_cons_of_mem _ hoth))]
      rfl
  have hpad : ∀ bytes : Bytes, bytes ++ padding bytes =
      let bytes := if bytes ≠ [] ∧ bytes.getLast? ≠ some lf then bytes ++ [lf] else bytes
      if [92, lf] <:+ bytes ∨ [92, cr, lf] <:+ bytes then bytes ++ [lf] else bytes := by
    intro bytes
    unfold padding
    by_cases hfirst : bytes ≠ [] ∧ bytes.getLast? ≠ some lf
    · simp only [if_pos hfirst]
      split_ifs <;> simp
    · simp only [if_neg hfirst, append_nil]
      split_ifs <;> simp
  unfold Document.appendSection
  rw [headerText_eq hsec, hlines]
  change Document.parse (_ ++ _ ++ _ ++ _) = _
  rw [← hpad]
  simp [linesText]

/-- Adding a section: its entries follow all others. -/
def SectionAppended (doc : Document) (sec : Bytes) (sub : Option Bytes)
    (ents : List (Bytes × Bytes)) : Prop :=
  ∃ doc', doc.appendSection sec sub ents = .ok doc' ∧ contents doc' =
    contents doc ++ ents.map (fun entry => (⟨sec, sub⟩, entry.1, some entry.2))

lemma appendSection_cases (hsec : ValidSection sec sub)
    (hens : ∀ entry ∈ ents, ValidName entry.1 ∧ 0 ∉ entry.2) :
    SectionAppended doc sec sub ents ↔
      (∀ entry ∈ ents, ¬ LosesReturn entry.2) ∧ ¬ ReturnAtEnd doc := by
  obtain ⟨all, hall, hiff⟩ := @linesText_read ents ⟨sec, sub⟩ hsec.nonempty hens
  have hnew : ∀ cur, assignments cur (symbols (91 :: headerRest sec sub ++ lf :: linesText ents)) =
      some all := by
    intro cur
    have hlast : (91 :: headerRest sec sub).getLast? = some 93 := by
      rw [headerRest, ← append_assoc, ← cons_append, getLast?_concat]
    have hsym : symbols (91 :: headerRest sec sub ++ lf :: linesText ents) =
        plains (91 :: headerRest sec sub) ++ .plain lf :: symbols (linesText ents) := by
      rw [symbols_append, symbols_lf, symbols_of_not_mem]
      · rfl
      · rw [mem_cons, not_or]
        exact ⟨by decide, lf_not_mem_headerRest hsec⟩
      · rintro ⟨hcr, -⟩
        rw [hlast] at hcr
        cases hcr
    obtain ⟨start, stop, hitem⟩ := @item_headerText sec sub cur
      (.plain lf :: symbols (linesText ents)) hsec
    have hline : assignments ⟨sec, sub⟩ (.plain lf :: symbols (linesText ents)) = some all := by
      rw [← hall, assignments, assignments]
      congr 2
      exact items_line (l := []) (fun _ hs => absurd hs not_mem_nil) rfl (fun _ hb => by cases hb)
    rw [hsym, assignments_of_item hitem]
    change (assignments ⟨sec, sub⟩ _).map _ = _
    rw [hline]
    rfl
  unfold SectionAppended
  rw [appendSection_eq hsec hens, parse_iff]
  by_cases hret : ReturnAtEnd doc
  · refine iff_of_false (fun hasg => ?_) (·.2 hret)
    obtain ⟨i, hi, hdiff⟩ := padding_return hret hasg
    rw [getElem?_append_left hi] at hdiff
    exact hdiff rfl
  · obtain ⟨cur, hread⟩ := @assignments_padding doc
      (91 :: headerRest sec sub ++ lf :: linesText ents) rfl hret
    rw [hread, hnew cur, Option.map_some, Option.some.injEq, append_cancel_left_eq, hiff]
    exact (and_iff_left hret).symm

end Added

end Girt.Proofs
