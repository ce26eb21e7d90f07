import Girt.Proofs.ConfigEdit

/-!
# Lines and headers that are written

Written lines and headers are read back, after any section and before anything else.
-/

namespace Girt.Proofs
open ByteLib LineEnds Girt.Config List

structure ValidName (name : Bytes) : Prop where
  first : name.head?.any isAlphabetic = true
  all : name.all isNameByte = true

instance (name : Bytes) : Decidable (ValidName name) :=
  decidable_of_iff (name.head?.any isAlphabetic = true ∧ name.all isNameByte = true) ⟨fun h => ⟨h.1, h.2⟩, fun h => ⟨h.1, h.2⟩⟩

/-- A section and a subsection that can be written. -/
structure ValidSection (sectionBytes : Bytes) (subsection : Option Bytes) : Prop where
  nonempty : sectionBytes ≠ []
  all : sectionBytes.all isNameByte = true
  subsection : ∀ bytes ∈ subsection, 0 ∉ bytes ∧ lf ∉ bytes

section Lines

variable {name value : Bytes} {current : SectionName}

def lineStart (name : Bytes) : Bytes := [9] ++ name ++ ascii " = "

def lineText (name value : Bytes) : Bytes := lineStart name ++ quotedText value ++ [lf]

lemma validateVariableName_eq (h : ValidName name) : validateVariableName name = .ok () := by
  rw [validateVariableName, reject_ok, h.first, h.all]
  decide

lemma assignmentLine_eq (h : 0 ∉ value) :
    assignmentLine name value = .ok (lineText name value) := by
  rw [assignmentLine, quote_eq h, bind_ok]
  exact ⟨_, rfl, rfl⟩

lemma onLine_plains {bs : Bytes} (h : lf ∉ bs) : OnLine (plains bs) := by
  intro s hs hbyte
  obtain ⟨b, hb, rfl⟩ := mem_map.mp hs
  exact h (hbyte ▸ hb)

lemma lf_not_mem_name (h : name.all isNameByte) : lf ∉ name := by
  intro hmem
  have hlf := all_eq_true.mp h lf hmem
  cases hlf

lemma lf_not_mem_lineStart (h : ValidName name) : lf ∉ lineStart name := by
  unfold lineStart
  rw [mem_append, mem_append, not_or, not_or]
  exact ⟨⟨by decide, lf_not_mem_name h.all⟩, by decide⟩

lemma letters_plains (h : ValidName name) : Letters (plains name) := by
  refine ⟨?_, fun s hs => ?_⟩
  · have hfirst := h.first
    cases name with
    | nil => cases hfirst
    | cons b name => exact ⟨.plain b, rfl, hfirst⟩
  · obtain ⟨b, hb, rfl⟩ := mem_map.mp hs
    exact all_eq_true.mp h.all b hb

lemma symbols_lineText (hname : ValidName name) (hval : 0 ∉ value) : ∃ text nl read,
    symbols (lineText name value) = plains (lineStart name ++ text) ++ [nl] ∧ lf ∉ text ∧ nl.byte = lf ∧
      (read = value ↔ ¬ LosesReturn value) ∧
      ∀ r stop, ∃ stop', valueLoop (plains text ++ nl :: r) [] false 0 stop = .ok (read, stop', r) := by
  by_cases hlos : LosesReturn value
  · obtain ⟨init, rfl, htext⟩ := hlos.text
    obtain ⟨read, hread, hloop⟩ := hlos.read hval
    refine ⟨bareText init, .crlf, read, ?_, lf_not_mem_bareText init, rfl,
      by simp [hread, hlos], fun r stop =>
      hloop .crlf r stop rfl⟩
    have hform : lineText name (init ++ [cr]) = (lineStart name ++ bareText init) ++ cr :: lf :: [] := by
      rw [lineText, htext]
      simp
    rw [hform, symbols_join, symbols_of_not_mem]
    · rfl
    · rw [mem_append, not_or]
      exact ⟨lf_not_mem_lineStart hname, lf_not_mem_bareText init⟩
  · refine ⟨quotedText value, .plain lf, value, ?_, lf_not_mem_quotedText value, rfl,
      by simp [hlos], fun r stop => ?_⟩
    · rw [lineText, symbols_append, symbols_of_not_mem]
      · rfl
      · rw [mem_append, not_or]
        exact ⟨lf_not_mem_lineStart hname, lf_not_mem_quotedText value⟩
      rintro ⟨hlast, -⟩
      by_cases hnil : quotedText value = []
      · rw [hnil, append_nil, lineStart, getLast?_append_of_ne_nil _ (by decide)] at hlast
        revert hlast
        decide
      · rw [getLast?_append_of_ne_nil _ hnil] at hlast
        exact hlos (getLast?_quotedText hlast)
    · obtain ⟨stop', hquo⟩ := (run_quotedText hval).valueLoop (.plain lf :: r) stop
      refine ⟨stop', ?_⟩
      rw [hquo, valueLoop_lf _ _ _ _ rfl, take_length]

lemma lineText_read (hname : ValidName name) (hval : 0 ∉ value) :
    ∃ read, (read = value ↔ ¬ LosesReturn value) ∧ ∀ current r, current.sectionBytes ≠ [] →
      assignments current (symbols (lineText name value) ++ r) =
      (assignments current r).map (fun more => (current, name, some read) :: more) := by
  obtain ⟨text, nl, read, hsym, -, -, hread, hloop⟩ := symbols_lineText hname hval
  refine ⟨read, hread, fun current r hcur => ?_⟩
  obtain ⟨stop, hass⟩ := @assignments_assign current [.plain 9] (plains name) [.plain 32]
    [.plain 32] (.plain 61) hcur
    (by decide) (letters_plains hname) (by decide) rfl (by decide) (plains text ++ nl :: r)
  obtain ⟨stop', hloop'⟩ := hloop r stop
  have hform : symbols (lineText name value) ++ r =
      [.plain 9] ++ (plains name ++ ([.plain 32] ++ .plain 61 :: ([.plain 32] ++ (plains text ++ nl :: r)))) := by
    have hequ : ascii " = " = [32, 61, 32] := by decide
    rw [hsym, lineStart, hequ]
    simp [plains]
  have hbs : (plains name).map Symbol.byte = name := by
    rw [plains, map_map]
    exact map_id name
  rw [hform, hass, valueThen_of_ok hloop', hbs]

end Lines

section Headers

variable {sectionBytes : Bytes} {subsection : Option Bytes} {current : SectionName} {rest : List Symbol}

def subsectionByte (b : UInt8) : Bytes := if b = 34 ∨ b = 92 then [92, b] else [b]

def subsectionText : Option Bytes → Bytes
  | none => []
  | some bytes => [32, 34] ++ bytes.flatMap subsectionByte ++ [34]

def headerRest (sectionBytes : Bytes) (subsection : Option Bytes) : Bytes :=
  sectionBytes ++ (subsectionText subsection ++ [93])

lemma quoteByte_true {b : UInt8} (h0 : b ≠ 0) (hlf : b ≠ lf) :
    quoteByte true b = .ok (subsectionByte b) := by
  unfold quoteByte subsectionByte
  simp only [if_neg h0, hlf, false_and, if_false, Bool.not_true, Bool.false_eq_true, and_false]
  split_ifs <;> rfl

lemma quote_subsection {bs : Bytes} (h0 : 0 ∉ bs) (hlf : lf ∉ bs) :
    quote bs true = .ok ([34] ++ bs.flatMap subsectionByte ++ [34]) := by
  have hmap : bs.mapM (quoteByte true) = .ok (bs.map subsectionByte) := by
    induction bs with
    | nil => rfl
    | cons b bs ih =>
      rw [mem_cons, not_or] at h0 hlf
      rw [mapM_cons, quoteByte_true (Ne.symm h0.1) (Ne.symm hlf.1), bind_ok]
      refine ⟨_, rfl, ?_⟩
      rw [ih h0.2 hlf.2]
      rfl
  rw [quote, hmap, bind_ok]
  refine ⟨_, rfl, ?_⟩
  rfl

lemma headerText_eq (h : ValidSection sectionBytes subsection) :
    headerText sectionBytes subsection = .ok (91 :: headerRest sectionBytes subsection) := by
  have hvd : ¬ (sectionBytes = [] ∨ (!sectionBytes.all isNameByte)) := by
    rw [h.all]
    simp [h.nonempty]
  cases subsection with
  | none =>
    refine reject_bind.mpr ⟨hvd, ?_⟩
    simp [headerRest, subsectionText, pure, Except.pure]
  | some bs =>
    obtain ⟨h0, hlf⟩ := h.subsection bs rfl
    refine reject_bind.mpr ⟨hvd, bind_ok.mpr ⟨_, quote_subsection h0 hlf, ?_⟩⟩
    simp [headerRest, subsectionText, pure, Except.pure]

lemma lf_not_mem_headerRest (h : ValidSection sectionBytes subsection) :
    lf ∉ headerRest sectionBytes subsection := by
  have hsub : lf ∉ subsectionText subsection := by
    cases subsection with
    | none => exact not_mem_nil
    | some bs =>
      obtain ⟨-, hlf⟩ := h.subsection bs rfl
      unfold subsectionText
      rw [mem_append, mem_append, not_or, not_or]
      refine ⟨⟨by decide, fun hmem => ?_⟩, by decide⟩
      obtain ⟨b, hb, hbyte⟩ := mem_flatMap.mp hmem
      unfold subsectionByte at hbyte
      split_ifs at hbyte with hquo
      · rcases mem_cons.mp hbyte with hesc | hbyte
        · exact absurd hesc (by decide)
        · exact hlf (mem_singleton.mp hbyte ▸ hb)
      · exact hlf (mem_singleton.mp hbyte ▸ hb)
  unfold headerRest
  rw [mem_append, mem_append, not_or, not_or]
  exact ⟨lf_not_mem_name h.all, hsub, by decide⟩

lemma quotedSubsection_escape {s t : Symbol} (hs : s.byte = 92) (ht : ¬ (t.byte = lf ∨ t.byte = 0))
    (read : Bytes) :
    quotedSubsection (s :: t :: rest) read = quotedSubsection rest (read ++ [t.byte]) := by
  rw [quotedSubsection.eq_def]
  simp [hs, if_neg ht]

lemma quotedSubsection_plain {s : Symbol} (hs : ¬ (s.byte = lf ∨ s.byte = 0)) (hquo : s.byte ≠ 34)
    (hesc : s.byte ≠ 92) (read : Bytes) :
    quotedSubsection (s :: rest) read = quotedSubsection rest (read ++ [s.byte]) := by
  rw [quotedSubsection.eq_def]
  simp only [if_neg hquo, if_neg hesc, if_neg hs]

lemma quotedSubsection_read {bs : Bytes} (h0 : 0 ∉ bs) (hlf : lf ∉ bs) (read : Bytes) :
    quotedSubsection (plains (bs.flatMap subsectionByte) ++ .plain 34 :: rest) read =
      .ok (read ++ bs, rest) := by
  induction bs generalizing read with
  | nil =>
    rw [append_nil, flatMap_nil, plains, map_nil, nil_append, quotedSubsection.eq_def]
    rfl
  | cons b bs ih =>
    rw [mem_cons, not_or] at h0 hlf
    have hb : ¬ (b = lf ∨ b = 0) := fun h => h.elim (hlf.1 ·.symm) (h0.1 ·.symm)
    have hnext := ih h0.2 hlf.2 (read ++ [b])
    rw [append_assoc, singleton_append] at hnext
    rw [← hnext]
    by_cases hquo : b = 34 ∨ b = 92
    · have hform : plains ((b :: bs).flatMap subsectionByte) =
          .plain 92 :: .plain b :: plains (bs.flatMap subsectionByte) := by
        simp [plains, subsectionByte, hquo]
      rw [hform]
      exact quotedSubsection_escape (t := .plain b) rfl hb read
    · have hform : plains ((b :: bs).flatMap subsectionByte) =
          .plain b :: plains (bs.flatMap subsectionByte) := by
        simp [plains, subsectionByte, hquo]
      rw [not_or] at hquo
      rw [hform]
      exact quotedSubsection_plain (s := .plain b) hb hquo.1 hquo.2 read

lemma subsection_read (h : ValidSection sectionBytes subsection) :
    Config.subsection (plains (subsectionText subsection) ++ .plain 93 :: rest) =
      .ok (subsection, .plain 93 :: rest) := by
  cases subsection with
  | none => rfl
  | some bs =>
    obtain ⟨h0, hlf⟩ := h.subsection bs rfl
    have hform : plains (subsectionText (some bs)) ++ .plain 93 :: rest =
        .plain 32 :: .plain 34 :: (plains (bs.flatMap subsectionByte) ++ .plain 34 :: .plain 93 :: rest) := by
      simp [subsectionText, plains]
    have hquo := @quotedSubsection_read (.plain 93 :: rest) bs h0 hlf []
    have hdot : ∀ tail, dottedSubsection (.plain 32 :: tail) = (none, .plain 32 :: tail) := fun _ => rfl
    have hsp : ∀ tail, space (.plain 32 :: .plain 34 :: tail) = .plain 34 :: tail := fun tail => by
      rw [space_cons_of_blank (by decide), space_cons_of_not_blank (by decide)]
    rw [hform]
    simp only [Config.subsection, hdot, hsp]
    refine (if_pos rfl).trans (bind_ok.mpr ⟨(), rfl, bind_ok.mpr ⟨_, hquo, ?_⟩⟩)
    rfl

lemma header_read (h : ValidSection sectionBytes subsection) :
    header (plains (headerRest sectionBytes subsection) ++ rest) =
      .ok (⟨sectionBytes, subsection⟩, rest) := by
  have hform : plains (headerRest sectionBytes subsection) ++ rest =
      plains sectionBytes ++ (plains (subsectionText subsection) ++ .plain 93 :: rest) := by
    simp [headerRest, plains]
  have hnames : ∀ s ∈ plains sectionBytes, isNameByte s.byte := by
    intro s hs
    obtain ⟨b, hb, rfl⟩ := mem_map.mp hs
    exact all_eq_true.mp h.all b hb
  have hstop : ∀ b ∈ peek (plains (subsectionText subsection) ++ .plain 93 :: rest), isNameByte b =
      false := by
    cases subsection with
    | none | some bytes =>
      rintro b ⟨⟩
      decide
  obtain ⟨hskip, htook⟩ := skipWhile_append hnames hstop
  have hbs : (plains sectionBytes).map Symbol.byte = sectionBytes := by
    rw [plains, map_map]
    exact map_id sectionBytes
  have hname : name false (plains sectionBytes ++
    (plains (subsectionText subsection) ++ .plain 93 :: rest)) =
      .ok (sectionBytes, plains (subsectionText subsection) ++ .plain 93 :: rest) := by
    rw [name, hskip, htook, hbs, Bool.false_and]
    exact bind_ok.mpr ⟨(), rfl, reject_bind.mpr ⟨h.nonempty, rfl⟩⟩
  rw [hform]
  exact bind_ok.mpr ⟨_, hname, bind_ok.mpr ⟨_, subsection_read h, rfl⟩⟩

lemma item_headerText (h : ValidSection sectionBytes subsection) : ∃ start stop,
    item current (plains (91 :: headerRest sectionBytes subsection) ++ rest) =
      .ok (some (.header start stop ⟨sectionBytes, subsection⟩), rest) := by
  refine ⟨widths (plains (91 :: headerRest sectionBytes subsection) ++ rest), widths rest, ?_⟩
  exact bind_ok.mpr ⟨_, header_read h, rfl⟩

end Headers

end Girt.Proofs
