import Girt.Proofs.ConfigEdit

/-!
# Where the items of a document stand

Items stand in the order in which they were read, so the entries of a header are those up to the next one.
-/

namespace Girt.Proofs
open ByteLib LineEnds Girt.Config List

def startOf : Item → Nat
  | .header start _ _ => start
  | .entry start _ _ _ _ _ _ => start

def stopOf : Item → Nat
  | .header _ stop _ => stop
  | .entry _ _ stop _ _ _ _ => stop

section Positions

variable {cur : SectionName} {text rest : List Symbol}

lemma widths_le_of_suffix (h : rest <:+ text) : widths rest ≤ widths text := by
  obtain ⟨c, rfl⟩ := h
  rw [widths_append]
  omega

lemma widths_pos (h : text ≠ []) : 0 < widths text := by
  cases text with
  | nil => exact absurd rfl h
  | cons s text =>
    have := s.width_pos
    rw [widths_cons]
    omega

lemma item_bounds {found : Item} (h : item cur text = .ok (some found, rest)) :
    startOf found = widths (space text) ∧ stopOf found < startOf found ∧
      widths rest ≤ stopOf found := by
  rcases item_cases h with ⟨hnone, -⟩ | ⟨s, tail, hsp, -, -, ⟨-, name, hname, hgot⟩ | ⟨-, x, hen, hgot⟩⟩
  · cases hnone
  · cases hgot
    refine ⟨by rw [hsp]; rfl, ?_, le_rfl⟩
    have hle := widths_le_of_suffix (header_suffix hname)
    have hpos := s.width_pos
    simp only [startOf, stopOf, widths_cons]
    omega
  · cases hgot
    rw [hsp]
    obtain ⟨-, letters, hlet, hcases⟩ := entry_cases hen
    have hpos := widths_pos hlet.ne_nil
    rcases hcases with ⟨tail', hrest, -, rfl, rfl⟩ | ⟨_, _, _, _, tail', _, -, -, -, hrest, hcl, rfl, -, rfl⟩
    · refine ⟨rfl, ?_, widths_le_of_suffix (space_suffix tail')⟩
      simp only [startOf, stopOf, hrest, widths_append]
      omega
    · refine ⟨rfl, ?_, widths_le_of_suffix (item_suffix (show item cur tail' = _ from item_closed hcl)).1⟩
      simp only [startOf, stopOf, hrest, widths_append, widths_cons]
      omega

lemma items_bounds {fnd : List Item} (h : items cur text = .ok fnd) :
    fnd.Pairwise (fun a b => startOf b ≤ stopOf a) ∧
      ∀ x ∈ fnd, startOf x ≤ widths text ∧ stopOf x < startOf x := by
  induction hlen : text.length using Nat.strong_induction_on generalizing text cur fnd with
  | _ n ih =>
  by_cases htext : text = []
  · rw [htext, items_nil] at h
    cases h
    exact ⟨List.Pairwise.nil, fun x hx => absurd hx not_mem_nil⟩
  rw [items_eq] at h
  obtain ⟨⟨turn, rest⟩, hitem, h⟩ := bind_ok.mp h
  obtain ⟨more, hmore, h⟩ := bind_ok.mp h
  cases h
  have hrest : widths rest ≤ widths text := widths_le_of_suffix (item_suffix hitem).1
  obtain ⟨hpai, hbound⟩ := ih rest.length (hlen ▸ (item_suffix hitem).2 htext) hmore rfl
  cases turn with
  | none => exact ⟨hpai, fun x hx => ⟨(hbound x hx).1.trans hrest, (hbound x hx).2⟩⟩
  | some first =>
    obtain ⟨hst, hstop, haf⟩ := item_bounds hitem
    have hsp := widths_le_of_suffix (space_suffix text)
    refine ⟨pairwise_cons.mpr ⟨fun x hx => (hbound x hx).1.trans haf, hpai⟩, fun x hx => ?_⟩
    rcases mem_cons.mp hx with rfl | hx
    · exact ⟨hst.le.trans hsp, hstop⟩
    · exact ⟨(hbound x hx).1.trans hrest, (hbound x hx).2⟩

end Positions

section Anchors

variable {doc : Document} {pre entries later : List Item}

lemma widths_textOf_le (doc : Document) : widths (textOf doc.bytes) ≤ doc.bytes.length := by
  obtain ⟨-, ⟨mark, hmark⟩, -⟩ := @textOf_split doc (textOf doc.bytes) [] (append_nil _).symm
  have hlen := congrArg length hmark
  rw [length_take, length_append, length_spell] at hlen
  omega

lemma items_positions (doc : Document) :
    doc.items.Pairwise (fun a b => doc.position (stopOf a) ≤ doc.position (startOf b)) ∧
      ∀ x ∈ doc.items, doc.position (startOf x) < doc.position (stopOf x) := by
  obtain ⟨hpai, hbound⟩ := items_bounds (items_eq_ok doc)
  refine ⟨hpai.imp fun hle => Nat.sub_le_sub_left hle _, fun x hx => ?_⟩
  have hle := (hbound x hx).1.trans (widths_textOf_le doc)
  exact Nat.sub_lt_sub_left ((hbound x hx).2.trans_le hle) (hbound x hx).2

lemma rposition_eq_some {α : Type} {p : α → Bool} {l : List α} {i : Nat}
    (h : rposition p l = some i) :
    ∃ a x b, l = a ++ x :: b ∧ a.length = i ∧ p x ∧ ∀ y ∈ b, p y = false := by
  obtain ⟨j, hj, rfl⟩ := Option.map_eq_some_iff.mp h
  rw [findIdx?_eq_some_iff_getElem] at hj
  obtain ⟨hlt, hp, hbf⟩ := hj
  have hlen : j < l.length := by simpa using hlt
  have hget : l.reverse[j] = l[l.length - 1 - j] := getElem_reverse hlt
  refine ⟨l.take (l.length - 1 - j), l[l.length - 1 - j], l.drop (l.length - 1 - j + 1), ?_, ?_, ?_, ?_⟩
  · rw [← drop_eq_getElem_cons (by omega), take_append_drop]
  · rw [length_take]
    omega
  · rw [← hget]
    exact hp
  · intro y hy
    obtain ⟨k, hk, rfl⟩ := mem_iff_getElem.mp hy
    rw [length_drop] at hk
    have hlat := hbf (l.length - 1 - (l.length - 1 - j + 1 + k)) (by omega)
    rw [getElem_reverse] at hlat
    rw [getElem_drop]
    have hidx : l.length - 1 - (l.length - 1 - (l.length - 1 - j + 1 + k)) =
        l.length - 1 - j + 1 + k := by omega
    simp only [hidx, Bool.not_eq_true] at hlat
    exact hlat

lemma partitionPoint_append {α : Type} {p : α → Bool} {A B : List α} (hA : ∀ a ∈ A, p a)
    (hB : ∀ b ∈ B.head?, p b = false) : partitionPoint p (A ++ B) = A.length := by
  unfold partitionPoint
  rw [takeWhile_append_of_pos hA]
  cases B with
  | nil => simp
  | cons b B => simp [hB b rfl]

lemma entrySpan_eq_some {x : Item} {span : EntrySpan} (h : doc.entrySpan x = some span) :
    span.range = ⟨doc.position (startOf x), doc.position (stopOf x)⟩ := by
  cases x with
  | header _ _ _ => cases h
  | entry _ _ _ _ _ _ _ =>
    cases h
    rfl

lemma sectionSpan_eq_some {x : Item} {span : SectionSpan} (h : doc.sectionSpan x = some span) :
    span.range = ⟨doc.position (startOf x), doc.position (stopOf x)⟩ := by
  cases x with
  | header _ _ _ =>
    cases h
    rfl
  | entry _ _ _ _ _ _ _ => cases h

lemma length_filterMap_entrySpan (l : List Item) :
    (l.filterMap doc.entrySpan).length = (l.filterMap assignment).length := by
  induction l with
  | nil => rfl
  | cons x l ih =>
    cases x with
    | header _ _ _ => exact ih
    | entry _ _ _ _ _ _ _ => exact congrArg (· + 1) ih

lemma length_filterMap_entries {l : List Item} (h : ∀ x ∈ l, (assignment x).isSome) :
    (l.filterMap assignment).length = l.length := by
  induction l with
  | nil => rfl
  | cons x l ih =>
    obtain ⟨content, hx⟩ := Option.isSome_iff_exists.mp (h x (.head _))
    rw [filterMap_cons_some hx, length_cons, length_cons, ih (fun y hy => h y (mem_cons_of_mem _ hy))]

/-- A header with its entries: what stands before it, and what begins with the next header. -/
structure Divided (doc : Document) (pre : List Item) (header : Item) (entries later : List Item) : Prop where
  items : doc.items = pre ++ header :: (entries ++ later)
  entries : ∀ x ∈ entries, (assignment x).isSome = true
  later : ∀ x ∈ later.head?, assignment x = none

variable {header : Item} {span : SectionSpan}

lemma partitionPoint_entrySpans {A B : List Item} {limit : Nat} (hits : doc.items = A ++ B)
    (hA : ∀ x ∈ A, doc.position (startOf x) < limit)
    (hB : ∀ x ∈ B, limit ≤ doc.position (startOf x)) :
    partitionPoint (fun entry => decide (entry.range.start < limit)) doc.entrySpans =
      (A.filterMap assignment).length := by
  rw [Document.entrySpans, hits, filterMap_append, ← @length_filterMap_entrySpan doc]
  refine partitionPoint_append (fun entry hen => ?_) fun entry hen => ?_
  · obtain ⟨x, hx, hen⟩ := mem_filterMap.mp hen
    rw [decide_eq_true_eq, entrySpan_eq_some hen]
    exact hA x hx
  · obtain ⟨x, hx, hen⟩ := mem_filterMap.mp (mem_of_head? hen)
    rw [decide_eq_false_iff_not, not_lt, entrySpan_eq_some hen]
    exact hB x hx

lemma Divided.next_section (h : Divided doc pre header entries later)
    (hspan : doc.sectionSpan header = some span) :
    doc.sectionSpans[(pre.filterMap doc.sectionSpan).length + 1]? =
      later.head?.bind doc.sectionSpan := by
  have hens : entries.filterMap doc.sectionSpan = [] := by
    rw [filterMap_eq_nil_iff]
    intro x hx
    have hsome := h.entries x hx
    cases x with
    | header _ _ _ => cases hsome
    | entry _ _ _ _ _ _ _ => rfl
  rw [Document.sectionSpans, h.items, filterMap_append, filterMap_cons_some hspan, filterMap_append,
    hens, nil_append,
    getElem?_append_right (by omega), Nat.add_sub_cancel_left, getElem?_cons_succ]
  cases later with
  | nil => rfl
  | cons next later =>
    have hnext := h.later next rfl
    cases next with
    | header _ _ _ => rfl
    | entry _ _ _ _ _ _ _ => cases hnext

/-- The entries of a header are those that stand before the next one. -/
lemma sectionAt_eq (h : Divided doc pre header entries later)
    (hspan : doc.sectionSpan header = some span) :
    doc.sectionAt (pre.filterMap doc.sectionSpan).length span =
      ⟨(pre.filterMap assignment).length, (pre.filterMap assignment).length + entries.length⟩ := by
  obtain ⟨hpai, hbound⟩ := items_positions doc
  have hnone : assignment header = none := by
    cases header with
    | header _ _ _ => rfl
    | entry _ _ _ _ _ _ _ => cases hspan
  have hst : partitionPoint (fun entry => decide (entry.range.start < span.range.stop)) doc.entrySpans =
      (pre.filterMap assignment).length := by
    have hits : doc.items = (pre ++ [header]) ++ (entries ++ later) := by simp [h.items]
    rw [hits] at hpai hbound
    rw [partitionPoint_entrySpans hits, filterMap_append, filterMap_cons_none hnone, filterMap_nil,
      append_nil]
    · intro x hx
      rw [sectionSpan_eq_some hspan]
      have hlt := hbound x (mem_append_left _ hx)
      rcases mem_append.mp hx with hx | hx
      · have hle := (pairwise_append.mp (pairwise_append.mp hpai).1).2.2 x hx header (.head _)
        exact hlt.trans (hle.trans_lt (hbound header (by simp)))
      · rwa [mem_singleton.mp hx] at hlt ⊢
    · intro x hx
      rw [sectionSpan_eq_some hspan]
      exact (pairwise_append.mp hpai).2.2 header (by simp) x hx
  have hstop : partitionPoint (fun entry => decide (entry.range.start <
      ((doc.sectionSpans[(pre.filterMap doc.sectionSpan).length + 1]?).map (·.range.start)).getD
        doc.bytes.length)) doc.entrySpans = (pre.filterMap assignment).length + entries.length := by
    have hits : doc.items = (pre ++ header :: entries) ++ later := by simp [h.items]
    rw [hits] at hpai hbound
    have hlen : ((pre ++ header :: entries).filterMap assignment).length =
        (pre.filterMap assignment).length + entries.length := by
      rw [filterMap_append, filterMap_cons_none hnone, length_append, length_filterMap_entries h.entries]
    rw [h.next_section hspan, ← hlen]
    refine partitionPoint_entrySpans hits (fun x hx => ?_) fun x hx => ?_
    · have hlt := hbound x (mem_append_left _ hx)
      cases later with
      | nil => exact hlt.trans_le (Nat.sub_le _ _)
      | cons next later =>
        cases next with
        | header _ _ _ => exact hlt.trans_le ((pairwise_append.mp hpai).2.2 x hx _ (.head _))
        | entry _ _ _ _ _ _ _ => cases h.later _ rfl
    · cases later with
      | nil => cases hx
      | cons next later =>
        cases next with
        | header _ _ _ =>
          rcases mem_cons.mp hx with rfl | hx
          · exact le_rfl
          · have hle := (pairwise_cons.mp (pairwise_append.mp hpai).2.1).1 x hx
            exact (hbound _ (by simp)).le.trans hle
        | entry _ _ _ _ _ _ _ => cases h.later _ rfl
  unfold Document.sectionAt
  dsimp only
  rw [hst, hstop]

lemma anchor_eq (h : Divided doc pre header entries later)
    (hspan : doc.sectionSpan header = some span) :
    doc.anchor (pre.filterMap doc.sectionSpan).length span =
      doc.position (stopOf ((header :: entries).getLast (List.cons_ne_nil _ _))) := by
  unfold Document.anchor
  rw [sectionAt_eq h hspan]
  dsimp only
  rcases eq_nil_or_concat' entries with hnil | ⟨init, last, hcon⟩
  · subst hnil
    rw [if_neg (by simp), sectionSpan_eq_some hspan]
    rfl
  subst hcon
  obtain ⟨lastSpan, hlast⟩ : ∃ lastSpan, doc.entrySpan last = some lastSpan := by
    have hsome := h.entries last (by simp)
    cases last with
    | header _ _ _ => cases hsome
    | entry _ _ _ _ _ _ _ => exact ⟨_, rfl⟩
  have hidx : (pre.filterMap assignment).length + (init ++ [last]).length - 1 =
      ((pre ++ header :: init).filterMap assignment).length := by
    have hhd : assignment header = none := by
      cases header with
      | header _ _ _ => rfl
      | entry _ _ _ _ _ _ _ => cases hspan
    rw [filterMap_append, filterMap_cons_none hhd, length_append, length_append,
      length_filterMap_entries (fun x hx => h.entries x (mem_append_left _ hx)), length_singleton]
    omega
  have hget := filterMap_getElem?_of_split isSome_entrySpan (pre ++ header :: init) later hlast
  have hits : doc.items = pre ++ header :: init ++ last :: later := by
    rw [h.items]
    simp
  rw [hidx, Document.entrySpans, hits, hget, Option.map_some, Option.getD_some, entrySpan_eq_some hlast]
  simp

end Anchors

end Girt.Proofs
