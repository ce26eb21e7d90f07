import Girt.Proofs.ConfigAppend

/-!
# The end of a document

A line feed at the end belongs to a value that continues its line, and takes a carriage return from any other.
-/

namespace Girt.Proofs
open ByteLib LineEnds Girt.Config List

section LastSymbol

variable {value bytes : Bytes} {quoted quoted' : Bool} {keep keep' : Nat} {d : List Symbol} {nl : Symbol}

lemma Taken.last_newline (h : Taken value quoted keep d bytes quoted' keep') (hnl : nl ∈ d.getLast?)
    (hbyte : nl.byte = lf) : ∃ t, t.byte = 92 ∧ d = [t, nl] := by
  cases h with
  | quote hs =>
    cases hnl
    exact absurd (hs.symm.trans hbyte) (by decide)
  | continuation hs ht =>
    cases hnl
    exact ⟨_, hs, rfl⟩
  | escape hs ht hb =>
    cases hnl
    exact absurd hbyte ht
  | blank hs =>
    cases hnl
    exact absurd hbyte (blank_ne hs).2.1
  | plain h0 hlf =>
    cases hnl
    exact absurd hbyte hlf

/-- The last turn of the loop, by the last symbol it took. -/
lemma Run.last_turn (h : Run value quoted keep (d ++ [nl]) bytes quoted' keep') :
    ∃ c e value₁ quoted₁ keep₁, d ++ [nl] = c ++ e ∧
      nl ∈ e.getLast? ∧ Run value quoted keep c value₁ quoted₁ keep₁ ∧
      Taken value₁ quoted₁ keep₁ e bytes quoted' keep' := by
  generalize hall : d ++ [nl] = all at h
  cases h with
  | nil => simp at hall
  | snoc before last =>
    rename_i c e value₁ quoted₁ keep₁
    have hne : e ≠ [] := by
      rintro rfl
      cases last
    have hget := congrArg getLast? hall
    rw [getLast?_concat, getLast?_append_of_ne_nil _ hne] at hget
    exact ⟨c, e, value₁, quoted₁, keep₁, rfl, hget.symm, before, last⟩

lemma Run.last_newline (h : Run value quoted keep (d ++ [nl]) bytes quoted' keep')
    (hbyte : nl.byte = lf) : ∃ init t, d = init ++ [t] ∧ t.byte = 92 := by
  obtain ⟨c, e, _, _, _, hall, hlast, -, htook⟩ := h.last_turn
  obtain ⟨t, ht, rfl⟩ := htook.last_newline hlast hbyte
  have hform : d ++ [nl] = (c ++ [t]) ++ [nl] := by rw [hall]; simp
  exact ⟨c, t, (append_inj' hform rfl).1, ht⟩

lemma Taken.last_return (h : Taken value quoted keep d bytes quoted' keep')
    (hlast : .plain cr ∈ d.getLast?) :
    d = [.plain cr] ∧ bytes = value ++ [cr] ∧ quoted' = quoted := by
  cases h with
  | quote hs =>
    cases hlast
    exact absurd hs (by decide)
  | continuation hs ht =>
    cases hlast
    exact absurd ht (by decide)
  | escape hs ht hb =>
    cases hlast
    cases hb
  | blank hs =>
    cases hlast
    cases hs
  | plain h0 hlf =>
    cases hlast
    exact ⟨rfl, rfl, rfl⟩

lemma Run.last_return (h : Run value quoted keep (d ++ [.plain cr]) bytes quoted' keep') :
    ∃ init keep₁, bytes = init ++ [cr] ∧ Run value quoted keep d init quoted' keep₁ := by
  obtain ⟨c, e, value₁, _, keep₁, hall, hlast, hrun, htook⟩ := h.last_turn
  obtain ⟨rfl, rfl, rfl⟩ := htook.last_return hlast
  obtain ⟨rfl, -⟩ := append_inj' hall rfl
  exact ⟨value₁, keep₁, rfl, hrun⟩

end LastSymbol

section Texts

variable {doc : Document}
variable {init : List Symbol} {s : Symbol}

lemma getLast?_bytes_of_concat (h : textOf doc.bytes = init ++ [s]) :
    doc.bytes.getLast? = s.spell.getLast? := by
  obtain ⟨mark, hbs, -⟩ := bytes_eq doc
  rw [hbs, h, spell_append, ← append_assoc]
  cases s <;> simp [Symbol.spell]

lemma ends_lf_iff (h : textOf doc.bytes = init ++ [s]) :
    doc.bytes.getLast? = some lf ↔ s.byte = lf := by
  rw [getLast?_bytes_of_concat h]
  cases s <;> simp [Symbol.spell, Symbol.byte]

lemma ends_cr_iff (h : textOf doc.bytes = init ++ [s]) :
    doc.bytes.getLast? = some cr ↔ s = .plain cr := by
  rw [getLast?_bytes_of_concat h]
  cases s <;> simp [Symbol.spell, lf, cr]

lemma textOf_append {y : Bytes} (hy : y.head? ≠ some 0xef)
    (h : ¬ ((textOf doc.bytes).getLast? = some (.plain cr) ∧ y.head? = some lf)) :
    textOf (doc.bytes ++ y) = textOf doc.bytes ++ symbols y := by
  by_cases hnil : textOf doc.bytes = []
  · obtain ⟨mark, hbs, hmark⟩ := bytes_eq doc
    rw [hnil, spell_nil, append_nil] at hbs
    rw [hnil, hbs, hmark y hy, nil_append]
  · obtain ⟨-, -, hrep⟩ := @textOf_split doc (textOf doc.bytes) [] (append_nil _).symm
    have hall : doc.bytes.take (doc.position (widths [])) = doc.bytes := by
      rw [Document.position, widths_nil, Nat.sub_zero, take_length]
    rw [hall] at hrep
    exact hrep hnil y h

lemma textOf_append_concat {y : Bytes} (h : textOf doc.bytes = init ++ [s]) (hs : s ≠ .plain cr)
    (hy : y.head? ≠ some 0xef) : textOf (doc.bytes ++ y) = textOf doc.bytes ++ symbols y := by
  refine textOf_append hy fun hcr => hs ?_
  rw [h, getLast?_concat] at hcr
  exact Option.some.inj hcr.1

lemma textOf_append_return (h : textOf doc.bytes = init ++ [.plain cr]) (y : Bytes) :
    textOf (doc.bytes ++ lf :: y) = init ++ .crlf :: symbols y := by
  have hinit : init ≠ [] := by
    rintro rfl
    have hits := items_eq_ok doc
    rw [h] at hits
    have herr : item outside ([] ++ [.plain cr]) = .error (failure [.plain cr] "variable outside section") := rfl
    rw [items_eq, herr] at hits
    cases hits
  obtain ⟨hdrop, -, hrep⟩ := textOf_split h
  have hform : doc.bytes ++ lf :: y =
      doc.bytes.take (doc.position (widths [.plain cr])) ++ cr :: lf :: y := by
    conv_lhs => rw [← take_append_drop (doc.position (widths [.plain cr])) doc.bytes, hdrop]
    rw [append_assoc]
    rfl
  rw [hform, hrep hinit _ (by rintro ⟨-, hhead⟩; cases hhead), symbols, if_pos ⟨rfl, rfl⟩]

end Texts

section LastItem

variable {doc : Document} {before : List Item} {x : Item} {init : List Symbol} {s : Symbol}

lemma eq_nil_of_widths {tail : List Symbol} (h : widths tail = 0) : tail = [] := by
  by_contra hne
  exact absurd h (widths_pos hne).ne'

lemma last_entry (h : doc.items = before ++ [x]) (hstop : stopOf x = 0) (htext : textOf doc.bytes = init ++ [s])
    (hs : s.byte = lf ∨ s.byte = cr) : ∃ name key bytes P d, assignment x = some (name, key, some bytes) ∧ init = P ++ d ∧
      Run [] false 0 (d ++ [s]) bytes false bytes.length ∧
      ∀ y, ∃ stop, assignments outside (P ++ y) = (valueThen name key y stop).map (before.filterMap assignment ++ ·) := by
  cases x with
  | header start stop name =>
    have hits := items_eq_ok doc
    rw [h, htext] at hits
    obtain ⟨c₀, rest, after, hrest, hitem, -, -⟩ := items_reach hits
    obtain ⟨-, c, t, rfl, -, ht, rfl, -⟩ := item_header hitem
    rw [eq_nil_of_widths hstop, ← append_assoc] at hrest
    obtain ⟨-, hlast⟩ := append_inj' hrest rfl
    cases hlast
    rw [ht] at hs
    exact absurd hs (by decide)
  | entry start valueStart stop lines name key value =>
    obtain ⟨P, d, tail, htext', hP, hlast, -, rfl, -, -, -, hval, hread⟩ := value_replaced h
    rw [eq_nil_of_widths hstop, append_nil, htext] at htext'
    have hopen : ¬ (s.byte ≠ cr ∧ s.byte ≠ lf) := by
      rintro ⟨hcr, hlf⟩
      exact hs.elim hlf hcr
    have hlas : d ≠ [] := by
      rintro rfl
      rw [append_nil] at htext'
      exact hopen (hlast s (by rw [← htext', getLast?_concat]; rfl))
    rcases hval with ⟨-, rfl⟩ | ⟨bytes, rfl, hrun⟩
    · exact absurd rfl hlas
    rcases eq_nil_or_concat' d with rfl | ⟨d', t, rfl⟩
    · exact absurd rfl hlas
    rw [← append_assoc] at htext'
    obtain ⟨rfl, hsame⟩ := append_inj' htext' rfl
    cases hsame
    exact ⟨name, key, bytes, P, d', rfl, rfl, hrun, hread⟩

/-- A line end within the last value continues it, and it takes a line that is added. -/
lemma last_newline_cases (h : doc.items = before ++ [x]) (hstop : stopOf x = 0)
    (htext : textOf doc.bytes = init ++ [s]) (hs : s.byte = lf) :
    (∃ init' t, init = init' ++ [t] ∧ t.byte = 92) ∧ ∀ w nl all, OnLine w → nl.byte = lf →
      assignments outside (textOf doc.bytes ++ (w ++ [nl])) = some all →
      all.length = (contents doc).length := by
  obtain ⟨name, key, bytes, P, d, hx, rfl, hrun, hread⟩ := last_entry h hstop htext (Or.inl hs)
  constructor
  · obtain ⟨init', t, rfl, ht⟩ := hrun.last_newline hs
    exact ⟨P ++ init', t, by simp, ht⟩
  intro w nl all hw hnl hall
  have hform : textOf doc.bytes ++ (w ++ [nl]) = P ++ ((d ++ [s]) ++ (w ++ [nl])) := by
    rw [htext]
    simp
  obtain ⟨stop, hasg⟩ := hread ((d ++ [s]) ++ (w ++ [nl]))
  obtain ⟨stop', hloop⟩ := hrun.valueLoop (w ++ [nl]) stop
  rw [hform, hasg, valueThen, hloop] at hall
  cases hval : valueLoop (w ++ [nl]) bytes false bytes.length stop' with
  | error e =>
    rw [hval] at hall
    cases hall
  | ok read =>
    obtain ⟨read, stop'', after⟩ := read
    rw [hval] at hall
    -- What the value leaves is closed, and the line has no second end.
    obtain ⟨c, tail, htail, hcl, rfl⟩ : ∃ c tail, w ++ [nl] = c ++ tail ∧ Closed tail ∧
      after = afterClose tail := by
      rcases valueLoop_ends le_rfl hval with ⟨-, -, -, hcl, haf⟩ | ⟨c, tail, -, htail, -, hcl, haf⟩
      · exact ⟨[], _, rfl, hcl, haf⟩
      · exact ⟨c, tail, htail, hcl, haf⟩
    have hnone : items name (afterClose tail) = .ok [] := by
      rw [items_closed hcl]
      rcases eq_nil_or_concat' tail with rfl | ⟨w', t, rfl⟩
      · exact items_nil name
      rw [← append_assoc] at htail
      obtain ⟨rfl, hsame⟩ := append_inj' htail rfl
      cases hsame
      have hw' : OnLine w' := fun t ht => hw t (mem_append_right _ ht)
      rw [items_line hw' hnl ((closed_line hnl []).mp hcl), items_nil]
    have hall' : all = before.filterMap assignment ++ [(name, key, some read)] := by
      change ((assignments name (afterClose tail)).map _).map _ = some all at hall
      rw [assignments, hnone] at hall
      exact (Option.some.inj hall).symm
    rw [hall', contents_eq, h, filterMap_append, filterMap_cons_some hx]
    simp

lemma last_return_cases (h : doc.items = before ++ [x]) (hstop : stopOf x = 0)
    (htext : textOf doc.bytes = init ++ [.plain cr]) :
    (assignment x).isSome ∧ ∀ r all, assignments outside (init ++ .crlf :: r) = some all →
      all[(before.filterMap assignment).length]? ≠
      (contents doc)[(before.filterMap assignment).length]? := by
  obtain ⟨name, key, bytes, P, d, hx, rfl, hrun, hread⟩ := last_entry h hstop htext (Or.inr rfl)
  refine ⟨by rw [hx]; rfl, fun r all hall => ?_⟩
  obtain ⟨value, keep, rfl, hrun'⟩ := hrun.last_return
  obtain ⟨stop, hasg⟩ := hread (d ++ .crlf :: r)
  obtain ⟨stop', hloop⟩ := hrun'.valueLoop (.crlf :: r) stop
  rw [append_assoc, hasg, valueThen_of_ok (hloop.trans (valueLoop_lf _ _ _ _ rfl)), Option.map_map] at hall
  obtain ⟨more, -, rfl⟩ := Option.map_eq_some_iff.mp hall
  rw [Function.comp_apply, contents_eq, h, filterMap_append, filterMap_cons_some hx,
    getElem?_append_right le_rfl,
    getElem?_append_right le_rfl, Nat.sub_self]
  intro hsame
  have hval : value.take keep = value ++ [cr] :=
    Option.some.inj (Prod.mk.inj (Prod.mk.inj (Option.some.inj hsame)).2).2
  have hlen := congrArg length hval
  rw [length_take, length_append, length_singleton] at hlen
  omega

end LastItem

end Girt.Proofs
