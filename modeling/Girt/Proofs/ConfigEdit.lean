import Girt.Proofs.ConfigQuote

/-!
# Edits of configuration documents

The parser reaches a replaced value over the same symbols and goes on after the same end of the line.
-/

namespace Girt.Proofs
open ByteLib LineEnds Girt.Config List
open LineEnds.Symbol (byte)
open Document (apply entries entryOf entrySpans parse)

def contents (doc : Document) : List Assignment :=
  doc.entries.map (fun entry => (⟨entry.sectionBytes, entry.subsection⟩, entry.name, entry.value))

def outside : SectionName := ⟨[], none⟩

section Documents

variable {doc : Document} {c rest : List Symbol}

lemma contents_eq (doc : Document) : contents doc = doc.items.filterMap assignment := by
  unfold contents entries
  rw [map_filterMap]
  congr 1
  funext found
  cases found <;> rfl

lemma parseItems_eq_ok {bytes : Bytes} {l : List Item} :
    parseItems bytes = .ok l ↔ items outside (textOf bytes) = .ok l := by
  rw [parseItems, outside]
  split <;> simp [*]

lemma items_eq_ok (doc : Document) : items outside (textOf doc.bytes) = .ok doc.items := parseItems_eq_ok.mp doc.parsed

lemma assignments_eq (doc : Document) :
    assignments outside (textOf doc.bytes) = some (contents doc) := by
  rw [assignments, items_eq_ok, contents_eq]
  rfl

lemma bytes_of_parse {bytes : Bytes} (h : parse bytes = .ok doc) : doc.bytes = bytes := by
  unfold parse at h
  split at h
  · cases h
  · cases h
    rfl

lemma parse_iff {bytes : Bytes} {found : List Assignment} :
    (∃ doc, parse bytes = .ok doc ∧ contents doc = found) ↔
      assignments outside (textOf bytes) = some found := by
  constructor
  · rintro ⟨doc, hdoc, rfl⟩
    rw [← bytes_of_parse hdoc, assignments_eq]
  intro h
  cases hits : items outside (textOf bytes) with
  | error e =>
    rw [assignments, hits] at h
    cases h
  | ok items =>
    rw [← parseItems_eq_ok] at hits
    refine ⟨⟨bytes, items, hits⟩, ?_, Option.some.inj ((assignments_eq ⟨bytes, items, hits⟩).symm.trans h)⟩
    unfold parse
    split
    · rename_i e herr
      rw [hits] at herr
      cases herr
    rename_i items' hits'
    rw [hits] at hits'
    cases hits'
    rfl

lemma first_ne_mark {s : Symbol} {found : List Item} (h : items outside (s :: rest) = .ok found) :
    s.byte ≠ 0xef := by
  intro hbyte
  have hsp : space (s :: rest) = s :: rest := space_cons_of_not_blank (by rw [hbyte]; decide) rest
  have hen : entry outside (s :: rest) = .error (failure (s :: rest) "variable outside section") := rfl
  have hitem : item outside (s :: rest) = .error (failure (s :: rest) "variable outside section") := by
    have hcom : isCommentStart s.byte = false := by
      rw [hbyte]
      decide
    rw [item, hsp]
    simp only [itemAt, if_neg (show ¬ s.byte = lf by rw [hbyte]; decide), hcom, Bool.false_eq_true, if_false,
      if_neg (show ¬ s.byte = 91 by rw [hbyte]; decide), hen]
    rfl
  rw [items_eq, hitem] at h
  cases h

/-- The text of a document is spelled in its bytes, which may begin with a mark. -/
lemma bytes_eq (doc : Document) : ∃ mark, doc.bytes = mark ++ spell (textOf doc.bytes) ∧
    ∀ y : Bytes, y.head? ≠ some 0xef → textOf (mark ++ y) = symbols y := by
  by_cases hmark : byteOrderMark.isPrefixOf doc.bytes
  · obtain ⟨tail, htail⟩ := isPrefixOf_iff_prefix.mp hmark
    have hread : ∀ y, textOf (byteOrderMark ++ y) = symbols y := fun y => rfl
    exact ⟨byteOrderMark, by rw [← htail, hread, spell_symbols], fun y _ => hread y⟩
  · refine ⟨[], by rw [textOf, if_neg hmark, spell_symbols, nil_append], fun y hy => ?_⟩
    cases y with
    | nil => rfl
    | cons b y =>
      have hb : (0xef : UInt8) ≠ b := fun hb => hy (by rw [hb]; rfl)
      simp [textOf, byteOrderMark, isPrefixOf, hb]

/-- Where the text of a document can be divided, its bytes can, and others can take the place of
those that follow. -/
lemma textOf_split (h : textOf doc.bytes = c ++ rest) : doc.bytes.drop (doc.position (widths rest)) = spell rest ∧
    (∃ mark, doc.bytes.take (doc.position (widths rest)) = mark ++ spell c) ∧
    (c ≠ [] → ∀ y : Bytes, ¬ (c.getLast? = some (.plain cr) ∧ y.head? = some lf) →
      textOf (doc.bytes.take (doc.position (widths rest)) ++ y) = c ++ symbols y) := by
  have hits := items_eq_ok doc
  have hcut := (symbols_eq_append (show symbols _ = _ from h)).2.1
  obtain ⟨mark, hbs, hmark⟩ := bytes_eq doc
  rw [h] at hbs hits
  have hlen : doc.position (widths rest) = (mark ++ spell c).length := by
    rw [Document.position, hbs, spell_append, ← append_assoc, length_append, length_spell rest]
    omega
  rw [hlen, hbs, spell_append, ← append_assoc]
  refine ⟨drop_left, ⟨mark, take_left⟩, fun hc y hjoin => ?_⟩
  rw [take_left, append_assoc, hmark, symbols_append, hcut]
  · rintro ⟨hlast, hhead⟩
    refine hjoin ⟨?_, hhead⟩
    rcases eq_nil_or_concat' c with rfl | ⟨init, s, rfl⟩
    · cases hlast
    · cases s with
      | plain b => simpa [Symbol.spell] using hlast
      | crlf => simp [Symbol.spell, lf, cr] at hlast
  · cases c with
    | nil => exact absurd rfl hc
    | cons s c =>
      have hfirst := first_ne_mark hits
      cases s with
      | plain b => simpa [Symbol.spell, byte] using hfirst
      | crlf => simp [Symbol.spell, cr]

end Documents

section SetValue

variable {doc : Document} {pre later : List Item} {start valueStart stop lines : Nat} {name : SectionName}
  {key : Bytes} {value : Option Bytes}

/-- What is read from a value on. -/
def valueThen (name : SectionName) (key : Bytes) (y : List Symbol) (stop : Nat) : Option (List Assignment) :=
  (valueLoop y [] false 0 stop).toOption.bind fun read => (assignments name read.2.2).map ((name, key, some read.1) :: ·)

lemma valueThen_of_ok {y after : List Symbol} {stop' : Nat} {read : Bytes}
    (h : valueLoop y [] false 0 stop = .ok (read, stop', after)) :
    valueThen name key y stop = (assignments name after).map ((name, key, some read) :: ·) := by
  rw [valueThen, h]
  rfl

lemma assignments_assign {current : SectionName} {blanks letters blanks₁ blanks₂ : List Symbol}
    {equals : Symbol}
    (hcur : current.sectionBytes ≠ []) (hgap : Blanks blanks) (hlet : Letters letters)
    (hgap₁ : Blanks blanks₁) (hequ : equals.byte = 61) (hgap₂ : Blanks blanks₂) (y : List Symbol) :
    ∃ stop, assignments current (blanks ++ (letters ++ (blanks₁ ++ equals :: (blanks₂ ++ y)))) =
      valueThen current (letters.map byte) y stop := by
  refine ⟨widths (space (blanks₂ ++ y)), ?_⟩
  have hitem := @item_of_entry current (blanks₁ ++ equals :: (blanks₂ ++ y)) blanks letters hgap hlet
  rw [entry_explicit hcur hlet hgap₁ hequ, valueLoop_blanks hgap₂] at hitem
  rw [valueThen]
  cases hread : valueLoop y [] false 0 (widths (space (blanks₂ ++ y))) with
  | error e =>
    rw [hread] at hitem
    rw [assignments, items_eq, hitem]
    rfl
  | ok read =>
    rw [hread] at hitem
    rw [assignments_of_item hitem]
    rfl

/-- What separates a variable from a value that it gets. -/
def lead (value : Option Bytes) : Bytes := if value = none then ascii " = " else []

/-- The parser gets to the value of an entry over the symbols before it, and continues after whatever
value stands there. -/
lemma value_replaced (h : doc.items = pre ++ .entry start valueStart stop lines name key value :: later) :
    ∃ P d tail, textOf doc.bytes = P ++ (d ++ tail) ∧ P ≠ [] ∧ (∀ s ∈ P.getLast?, s.byte ≠ cr ∧ s.byte ≠ lf) ∧
      valueStart = widths (d ++ tail) ∧ stop = widths tail ∧ Closed tail ∧ items name (afterClose tail) = .ok later ∧
      (value ≠ none → ∃ X Y, spell P = X ++ 61 :: Y ∧ lf ∉ Y) ∧
      ((value = none ∧ d = []) ∨ ∃ bytes, value = some bytes ∧ Run [] false 0 d bytes false bytes.length) ∧
      ∀ y, ∃ stop, assignments outside (P ++ (plains (lead value) ++ y)) =
        (valueThen name key y stop).map (pre.filterMap assignment ++ ·) := by
  have hits := items_eq_ok doc
  rw [h] at hits
  obtain ⟨c₀, rest, after, htext, hitem, hlat, hrea⟩ := items_reach hits
  obtain ⟨hname, hcur, blanks, letters, hgap, hlet, rfl, c, tail, rfl, hstop, hcl, rfl, -, hcase⟩ :=
    item_entry hitem
  rw [← hname] at hcur hlat hrea
  have hlat' : items name (afterClose tail) = .ok later := by
    rw [items_closed hcl, ← items_leftAfter value hcl]
    exact hlat
  have hpeek : ∀ r r', peek (blanks ++ (letters ++ r)) = peek (blanks ++ (letters ++ r')) := by
    intro r r'
    cases letters with
    | nil => exact absurd rfl hlet.ne_nil
    | cons s' letters => exact peek_append (by simp) blanks
  rcases hcase with ⟨rfl, rfl, hst⟩ | ⟨bytes, blanks₁, equals, blanks₂, d, rfl, rfl, hgap₁, hequ,
    hgap₂, hst, hrun⟩
  · refine ⟨c₀ ++ (blanks ++ letters), [], tail, by rw [htext]; simp, ?_, ?_, hst, hstop, hcl, hlat',
      fun hne => absurd rfl hne, Or.inl ⟨rfl, rfl⟩, fun y => ?_⟩
    · simp [hlet.ne_nil]
    · intro t hlast
      rw [← append_assoc, getLast?_append_of_ne_nil _ hlet.ne_nil] at hlast
      have hletter := hlet.all _ (mem_of_getLast? hlast)
      constructor <;> intro hbyte <;> rw [hbyte] at hletter <;> cases hletter
    · obtain ⟨stop', hread⟩ := @assignments_assign name blanks letters [.plain 32] [.plain 32] (.plain 61)
        hcur hgap hlet (by simp [Blanks, isBlank, byte]) rfl (by simp [Blanks, isBlank, byte]) y
      have hform : c₀ ++ (blanks ++ letters) ++ (plains (lead none) ++ y) =
          c₀ ++ (blanks ++ (letters ++ ([.plain 32] ++ .plain 61 :: ([.plain 32] ++ y)))) := by
        have hlead : plains (lead none) ++ y = [.plain 32] ++ .plain 61 :: ([.plain 32] ++ y) := rfl
        rw [hlead]
        simp
      exact ⟨stop', by rw [hform, hrea _ (hpeek _ _), hread]⟩
  · refine ⟨c₀ ++ (blanks ++ (letters ++ (blanks₁ ++ equals :: blanks₂))), d, tail,
      by rw [htext]; simp, by simp, ?_, hst,
      hstop, hcl, hlat', fun _ => ?_, Or.inr ⟨bytes, rfl, hrun⟩, fun y => ?_⟩
    · intro t hlast
      have hform : c₀ ++ (blanks ++ (letters ++ (blanks₁ ++ equals :: blanks₂))) =
          (c₀ ++ blanks ++ letters ++ blanks₁) ++ equals :: blanks₂ := by simp
      rw [hform, getLast?_append_of_ne_nil _ (by simp)] at hlast
      have ht : t = equals ∨ t ∈ blanks₂ := mem_cons.mp (mem_of_getLast? hlast)
      rcases ht with rfl | ht
      · rw [hequ]
        decide
      · have hbl := hgap₂ t ht
        constructor <;> intro hbyte <;> rw [hbyte] at hbl <;> cases hbl
    · refine ⟨spell (c₀ ++ (blanks ++ (letters ++ blanks₁))), spell blanks₂, ?_, ?_⟩
      · simp [Symbol.eq_plain hequ (by decide), Symbol.spell]
      · rw [lf_mem_spell]
        rintro ⟨t, ht, hbyte⟩
        have hbl := hgap₂ t ht
        rw [hbyte] at hbl
        revert hbl
        decide
    · obtain ⟨stop', hread⟩ := assignments_assign hcur hgap hlet hgap₁ hequ hgap₂ y
      have hform : c₀ ++ (blanks ++ (letters ++ (blanks₁ ++ equals :: blanks₂))) ++
          (plains (lead (some bytes)) ++ y) =
          c₀ ++ (blanks ++ (letters ++ (blanks₁ ++ equals :: (blanks₂ ++ y)))) := by
        have hlead : plains (lead (some bytes)) ++ y = y := rfl
        rw [hlead]
        simp
      exact ⟨stop', by rw [hform, hrea _ (hpeek _ _), hread]⟩

lemma isSome_entryOf (found : Item) : (doc.entryOf found).isSome = (assignment found).isSome := by
  cases found <;> rfl

lemma isSome_entrySpan (found : Item) :
    (doc.entrySpan found).isSome = (assignment found).isSome := by
  cases found <;> rfl

lemma entrySpans_at (h : doc.items = pre ++ .entry start valueStart stop lines name key value :: later) :
    doc.entrySpans[(pre.filterMap assignment).length]? = doc.entrySpan (.entry start valueStart stop lines name key value) := by
  rw [entrySpans, h]
  exact filterMap_getElem?_of_split isSome_entrySpan pre later rfl

lemma setValue_eq (h : doc.items = pre ++ .entry start valueStart stop lines name key value :: later)
    {bytes : Bytes} (hbs : 0 ∉ bytes) :
    doc.setValue (pre.filterMap assignment).length bytes =
      doc.apply [(⟨doc.position valueStart, doc.position stop⟩, lead value ++ quotedText bytes)] := by
  have hen : doc.entries[(pre.filterMap assignment).length]? = doc.entryOf
      (.entry start valueStart stop lines name key value) := by
    rw [entries, h]
    exact filterMap_getElem?_of_split isSome_entryOf pre later rfl
  rw [Document.setValue, hen, entrySpans_at h]
  simp only [entryOf, Document.entrySpan, quote_eq hbs]
  rfl

lemma rposition_append {α : Type} {p : α → Bool} {X Y : List α} (hY : ∀ y ∈ Y, p y = false)
    {i : Nat} (h : rposition p (X ++ Y) = some i) : i < X.length := by
  obtain ⟨j, hj, rfl⟩ := Option.map_eq_some_iff.mp h
  rw [findIdx?_eq_some_iff_getElem] at hj
  obtain ⟨hlt, hp, -⟩ := hj
  rw [length_reverse, length_append] at hlt
  have hge : Y.length ≤ j := by
    by_contra hj
    have hmem : (X ++ Y).reverse[j] ∈ Y := by
      simp only [reverse_append]
      rw [getElem_append_left (by simpa using hj)]
      exact mem_reverse.mp (getElem_mem _)
    rw [hY _ hmem] at hp
    cases hp
  rw [length_append]
  omega

lemma wholeBlankLine_eq {bs X Y : Bytes} {range : Range} (h : bs.take range.start = X ++ 61 :: Y)
    (hY : lf ∉ Y) : wholeBlankLine bs range = range := by
  have hline : ∀ i, rposition (· = lf) (bs.take range.start) = some i → i + 1 ≤ X.length := by
    intro i hi
    rw [h] at hi
    refine rposition_append ?_ hi
    intro y hy
    rcases mem_cons.mp hy with rfl | hy
    · decide
    · simpa using fun heq : y = lf => hY (heq ▸ hy)
  have hmem : ∀ n, n ≤ X.length → (61 : UInt8) ∈ (bs.take range.start).drop n := by
    intro n hn
    rw [h, drop_append_of_le_length hn]
    simp
  refine if_neg ?_
  rw [Bool.and_eq_true, not_and_or]
  left
  rw [all_eq_true]
  intro hall
  have hbl : ∀ n, n ≤ X.length → n = ((rposition (· = lf) (bs.take range.start)).map (· + 1)).getD 0 → False := by
    rintro n hn rfl
    have := hall 61 (hmem _ hn)
    revert this
    decide
  refine hbl _ ?_ rfl
  cases hi : rposition (fun b => decide (b = lf)) (bs.take range.start) with
  | none => exact Nat.zero_le _
  | some i => exact hline i hi

lemma apply_single (doc : Document) (range : Range) (repl : Bytes) :
    doc.apply [(range, repl)] = parse (splice doc.bytes
      (if repl = [] then wholeBlankLine doc.bytes range else range) repl) := by
  unfold apply
  by_cases h : repl = []
  · simp [h, mergeEdit]
  · simp [h, mergeEdit]

/-- One occurrence has the value it was given, every other entry is as before, and no byte outside
the span of the value has changed. -/
def ValueSet (doc : Document) (occurrence : Nat) (value : Bytes) : Prop :=
  ∃ doc', doc.setValue occurrence value = .ok doc' ∧
    contents doc' = (contents doc).modify occurrence (fun entry => (entry.1, entry.2.1, some value)) ∧
    ∃ span ∈ doc.entrySpans[occurrence]?, ∃ text, doc'.bytes = splice doc.bytes span.value text

/-- A line feed stands directly after the value of an occurrence. -/
def FollowedByLineFeed (doc : Document) (occurrence : Nat) : Prop :=
  ∃ span ∈ doc.entrySpans[occurrence]?, doc.bytes[span.value.stop]? = some lf

lemma setValue_cases (h : doc.items = pre ++ .entry start valueStart stop lines name key value :: later)
    {bytes : Bytes} (hbs : 0 ∉ bytes) :
    ValueSet doc (pre.filterMap assignment).length bytes ↔
      ¬ (LosesReturn bytes ∧ FollowedByLineFeed doc (pre.filterMap assignment).length) := by
  obtain ⟨P, d, tail, htext, hP, hlast, rfl, rfl, hcl, hlat, hequ, -, hrep⟩ := value_replaced h
  have hspan := entrySpans_at h
  obtain ⟨-, ⟨mark, hmark⟩, hreplace⟩ := textOf_split htext
  have htext' : textOf doc.bytes = (P ++ d) ++ tail := by rw [htext, append_assoc]
  obtain ⟨hdrop, -, -⟩ := textOf_split htext'
  have hset : doc.setValue (pre.filterMap assignment).length bytes = parse
      (doc.bytes.take (doc.position (widths (d ++ tail))) ++
      (lead value ++ quotedText bytes ++ spell tail)) := by
    rw [setValue_eq h hbs, apply_single]
    have hrg : lead value ++ quotedText bytes = [] → wholeBlankLine doc.bytes
        ⟨doc.position (widths (d ++ tail)), doc.position (widths tail)⟩ =
          ⟨doc.position (widths (d ++ tail)), doc.position (widths tail)⟩ := by
      intro hnil
      have hval : value ≠ none := by
        rintro rfl
        exact absurd (append_eq_nil_iff.mp hnil).1 (by decide)
      obtain ⟨X, Y, hspe, hY⟩ := hequ hval
      refine @wholeBlankLine_eq _ (mark ++ X) Y _ ?_ hY
      rw [hmark, hspe, append_assoc]
    rw [ite_eq_right_iff.mpr hrg, splice, hdrop, append_assoc]
  have hread : ValueSet doc (pre.filterMap assignment).length bytes ↔
      assignments outside (P ++ symbols (lead value ++ quotedText bytes ++ spell tail)) =
        some (pre.filterMap assignment ++ (name, key, some bytes) :: later.filterMap assignment) := by
    have hcon : contents doc = pre.filterMap assignment ++ (name, key,
      value) :: later.filterMap assignment := by
      rw [contents_eq, h, filterMap_append]
      rfl
    rw [← hreplace hP _ (fun hjoin => (hlast _ hjoin.1).1 rfl), ← parse_iff, ← hset, ValueSet, hcon,
      modify_append_cons]
    refine exists_congr fun doc' => and_congr_right fun hdoc' => and_iff_left ?_
    refine ⟨_, hspan, lead value ++ quotedText bytes, ?_⟩
    rw [bytes_of_parse (hset.symm.trans hdoc'), splice, hdrop]
    simp
  have hfol : FollowedByLineFeed doc (pre.filterMap assignment).length ↔ (spell tail).head? = some lf := by
    have hget : doc.bytes[doc.position (widths tail)]? = (spell tail).head? := by
      rw [← hdrop, head?_drop]
    unfold FollowedByLineFeed
    rw [hspan, ← hget]
    simp [Document.entrySpan]
  have hlead : lf ∉ lead value := by
    unfold lead
    split_ifs <;> decide
  rw [hread, hfol]
  constructor
  · rintro hasg ⟨hlos, hhead⟩
    -- The text ends with the carriage return that the line feed takes.
    obtain ⟨init, rfl, htex⟩ := hlos.text
    obtain ⟨tail', rfl⟩ : ∃ tail', tail = .plain lf :: tail' := by
      cases tail with
      | nil => cases hhead
      | cons s tail' =>
        cases s with
        | plain b =>
          cases hhead
          exact ⟨tail', rfl⟩
        | crlf => cases hhead
    obtain ⟨read, hread, hloop⟩ := hlos.read hbs
    have hform : symbols (lead value ++ quotedText (init ++ [cr]) ++ spell (.plain lf :: tail')) =
        plains (lead value) ++ (plains (bareText init) ++ .crlf :: symbols (spell tail')) := by
      have hjoin : lead value ++ quotedText (init ++ [cr]) ++ spell (.plain lf :: tail') =
          (lead value ++ bareText init) ++ cr :: lf :: spell tail' := by
        rw [htex]
        simp [Symbol.spell]
      rw [hjoin, symbols_join, symbols_of_not_mem]
      · simp [plains]
      · rw [mem_append, not_or]
        exact ⟨hlead, lf_not_mem_bareText init⟩
    obtain ⟨stop, hread'⟩ := hrep (plains (bareText init) ++ .crlf :: symbols (spell tail'))
    obtain ⟨stop', hloop'⟩ := hloop .crlf (symbols (spell tail')) stop rfl
    rw [hform, hread', valueThen_of_ok hloop', Option.map_map] at hasg
    obtain ⟨more, -, hmore⟩ := Option.map_eq_some_iff.mp hasg
    have hsame := (cons.inj (append_cancel_left hmore)).1
    exact hread (Option.some.inj (Prod.mk.inj (Prod.mk.inj hsame).2).2)
  · intro hfine
    have hend : ¬ ((lead value ++ quotedText bytes).getLast? = some cr ∧ (spell tail).head? = some lf) := by
      rintro ⟨hret, hhead⟩
      refine hfine ⟨getLast?_quotedText ?_, hhead⟩
      by_cases hnil : quotedText bytes = []
      · rw [hnil, append_nil] at hret
        unfold lead at hret
        split_ifs at hret
        · cases hret
        · cases hret
      · rwa [getLast?_append_of_ne_nil _ hnil] at hret
    have hform : symbols (lead value ++ quotedText bytes ++ spell tail) =
        plains (lead value) ++ (plains (quotedText bytes) ++ tail) := by
      rw [symbols_append hend, (symbols_eq_append (show symbols _ = _ from htext')).2.2, symbols_of_not_mem]
      · simp [plains]
      · rw [mem_append, not_or]
        exact ⟨hlead, lf_not_mem_quotedText bytes⟩
    obtain ⟨stop, hasg⟩ := hrep (plains (quotedText bytes) ++ tail)
    obtain ⟨stop', hquo⟩ := (run_quotedText hbs).valueLoop tail stop
    rw [valueLoop_closed hcl le_rfl, take_length] at hquo
    rw [hform, hasg, valueThen_of_ok hquo, assignments, hlat]
    rfl

end SetValue

end Girt.Proofs
