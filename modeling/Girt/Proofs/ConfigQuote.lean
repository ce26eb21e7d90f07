import Girt.Proofs.ConfigParse

/-!
# Values that are written and read back

A value is read back before any end of a line, except for a carriage return at the end of a bare one.
-/

namespace Girt.Proofs
open ByteLib LineEnds Girt.Config List

def plains (bytes : Bytes) : List Symbol := bytes.map .plain

def escapeText (b : UInt8) : Bytes :=
  if b = 34 ∨ b = 92 then [92, b] else if b = lf then [92, 110] else if b = 9 then [92, 116]
  else if b = 8 then [92, 98] else [b]

def bareText (value : Bytes) : Bytes := value.flatMap escapeText

def quotedText (value : Bytes) : Bytes :=
  if needsQuotes value then [34] ++ bareText value ++ [34] else bareText value

lemma quoteByte_false {b : UInt8} (h : b ≠ 0) : quoteByte false b = .ok (escapeText b) := by
  unfold quoteByte escapeText
  simp only [if_neg h, Bool.false_eq_true, and_false, if_false, Bool.not_false, and_true]
  split_ifs <;> rfl

lemma quote_eq {value : Bytes} (h : 0 ∉ value) : quote value false = .ok (quotedText value) := by
  have hmap : value.mapM (quoteByte false) = .ok (value.map escapeText) := by
    induction value with
    | nil => rfl
    | cons b value ih =>
      rw [mem_cons, not_or] at h
      rw [mapM_cons, quoteByte_false (Ne.symm h.1), bind_ok]
      refine ⟨_, rfl, ?_⟩
      rw [ih h.2]
      rfl
  rw [quote, hmap, bind_ok]
  refine ⟨_, rfl, ?_⟩
  rfl

lemma lf_not_mem_bareText (value : Bytes) : lf ∉ bareText value := by
  intro h
  obtain ⟨b, -, hb⟩ := mem_flatMap.mp h
  unfold escapeText at hb
  split_ifs at hb with h1 h2 h3 h4
  · rcases h1 with rfl | rfl <;> revert hb <;> decide
  · revert hb
    decide
  · revert hb
    decide
  · revert hb
    decide
  · exact h2 (mem_singleton.mp hb).symm

lemma lf_not_mem_quotedText (value : Bytes) : lf ∉ quotedText value := by
  unfold quotedText
  split_ifs
  · simp only [mem_append, mem_singleton, not_or]
    exact ⟨⟨by decide, lf_not_mem_bareText value⟩, by decide⟩
  · exact lf_not_mem_bareText value

section Reading

variable {read value : Bytes} {keep : Nat}

lemma taken_escapeText {b : UInt8} {quoted : Bool} (hb : b ≠ 0)
    (hpla : quoted ∨ (isCommentStart b = false ∧ b ≠ 32)) :
    Taken read quoted keep (plains (escapeText b)) (read ++ [b]) quoted (read.length + 1) := by
  unfold escapeText
  split_ifs with hspe hnl htab hbac
  · have hesc : escape b = some b := by
      rcases hspe with rfl | rfl <;> decide
    have hlf : b ≠ lf := by
      rcases hspe with rfl | rfl <;> decide
    exact .escape rfl hlf hesc
  · subst hnl
    exact .escape rfl (show (110 : UInt8) ≠ lf by decide) (by decide)
  · subst htab
    exact .escape rfl (show (116 : UInt8) ≠ lf by decide) (by decide)
  · subst hbac
    exact .escape rfl (show (98 : UInt8) ≠ lf by decide) (by decide)
  · rw [not_or] at hspe
    refine .plain hb hnl hspe.1 ?_ hspe.2 ?_
    · rcases hpla with rfl | ⟨hcom, -⟩
      · simp
      · simp [Symbol.byte, hcom]
    · rcases hpla with rfl | ⟨-, hbl⟩
      · simp
      · simp [Symbol.byte, isBlank, hbl, htab]

lemma plains_bareText_cons (b : UInt8) (value : Bytes) :
    plains (bareText (b :: value)) = plains (escapeText b) ++ plains (bareText value) := by
  simp [plains, bareText]

lemma run_within_quotes (h : 0 ∉ value) :
    Run read true read.length (plains (bareText value)) (read ++ value) true (read ++ value).length := by
  induction value generalizing read with
  | nil =>
    rw [append_nil]
    exact Run.nil
  | cons b value ih =>
    rw [mem_cons, not_or] at h
    have hfirst := @taken_escapeText read read.length b true (Ne.symm h.1) (Or.inl rfl)
    have hlat := @ih (read ++ [b]) h.2
    rw [@length_append _ read, append_assoc] at hlat
    rw [plains_bareText_cons]
    exact Run.cons hfirst hlat

lemma run_bareText (h : 0 ∉ value) (hcom : value.any isCommentStart = false)
    (hfirst : read ≠ [] ∨ value.head?.any isBlank = false) :
    ∃ keep', (value.getLast?.any isBlank = false → value ≠ [] → keep' = (read ++ value).length) ∧
      (value = [] → keep' = keep) ∧
      Run read false keep (plains (bareText value)) (read ++ value) false keep' := by
  induction value generalizing read keep with
  | nil =>
    refine ⟨keep, fun _ hne => absurd rfl hne, fun _ => rfl, ?_⟩
    rw [append_nil]
    exact Run.nil
  | cons b value ih =>
    rw [mem_cons, not_or] at h
    rw [any_cons, Bool.or_eq_false_iff] at hcom
    obtain ⟨keep₁, hkept, htook⟩ : ∃ keep₁, (isBlank b = false → keep₁ = (read ++ [b]).length) ∧
        Taken read false keep (plains (escapeText b)) (read ++ [b]) false keep₁ := by
      by_cases hbl : b = 32
      · subst hbl
        have hread : read ≠ [] := by
          rcases hfirst with hread | hhead
          · exact hread
          · cases hhead
        have htook := @Taken.blank (.plain 32) read keep (by decide)
        rw [if_neg hread] at htook
        exact ⟨keep, (fun hb => by cases hb), htook⟩
      · exact ⟨read.length + 1, fun _ => by simp, taken_escapeText (Ne.symm h.1) (Or.inr ⟨hcom.1, hbl⟩)⟩
    obtain ⟨keep', hlast, hnil, hrun⟩ := @ih (read ++ [b]) keep₁ h.2 hcom.2 (Or.inl (by simp))
    rw [append_assoc] at hrun
    refine ⟨keep', ?_, fun hne => (cons_ne_nil _ _ hne).elim, ?_⟩
    · intro hbl _
      cases hval : value with
      | nil =>
        subst hval
        rw [hnil rfl, hkept (by simpa using hbl)]
      | cons c value' =>
        rw [hval] at hbl hlast
        rw [hlast (by simpa using hbl) (cons_ne_nil _ _)]
        simp
    · rw [plains_bareText_cons]
      exact Run.cons htook hrun

lemma run_quotedText (h : 0 ∉ value) :
    Run [] false 0 (plains (quotedText value)) value false value.length := by
  unfold quotedText
  split_ifs with hquo
  · have hopen : Taken [] false 0 [.plain 34] [] true 0 := .quote rfl
    have hclo : Taken value true value.length [.plain 34] value false value.length := .quote rfl
    have hins := @run_within_quotes [] value h
    have hform : plains ([34] ++ bareText value ++ [34]) = [.plain 34] ++ plains (bareText value) ++
        [.plain 34] := by
      simp [plains]
    rw [hform]
    exact (Run.cons hopen hins).snoc hclo
  · unfold needsQuotes at hquo
    rw [Bool.not_eq_true, Bool.or_eq_false_iff, Bool.or_eq_false_iff] at hquo
    obtain ⟨keep', hlast, hnil, hrun⟩ := @run_bareText [] value 0 h hquo.2 (Or.inr hquo.1.1)
    have hkeep : keep' = value.length := by
      by_cases hval : value = []
      · rw [hnil hval, hval]
        rfl
      · exact hlast hquo.1.2 hval
    rw [hkeep] at hrun
    exact hrun

end Reading

/-- Whether a line feed after the text of a value would take its last byte away. -/
def LosesReturn (value : Bytes) : Prop := value.getLast? = some cr ∧ needsQuotes value = false

instance (value : Bytes) : Decidable (LosesReturn value) := inferInstanceAs (Decidable (_ ∧ _))

lemma LosesReturn.text {value : Bytes} (h : LosesReturn value) :
    ∃ init, value = init ++ [cr] ∧ quotedText value = bareText init ++ [cr] := by
  obtain ⟨init, rfl⟩ := getLast?_eq_some_iff.mp h.1
  rw [quotedText, h.2]
  simp [bareText, escapeText, cr, lf]

lemma LosesReturn.read {init : Bytes} (h : LosesReturn (init ++ [cr])) (h0 : 0 ∉ init ++ [cr]) :
    ∃ read, read ≠ init ++ [cr] ∧ ∀ (s : Symbol) (tail : List Symbol) (stop : Nat), s.byte = lf →
      ∃ stop', valueLoop (plains (bareText init) ++ s :: tail) [] false 0 stop =
      .ok (read, stop', tail) := by
  have hquo := h.2
  unfold needsQuotes at hquo
  rw [Bool.or_eq_false_iff, Bool.or_eq_false_iff, any_append, Bool.or_eq_false_iff] at hquo
  have hfirst : init.head?.any isBlank = false := by
    cases init with
    | nil => rfl
    | cons b init => exact hquo.1.1
  obtain ⟨keep, -, -, hrun⟩ := @run_bareText [] init 0 (fun hmem => h0 (mem_append_left _ hmem))
    hquo.2.1 (Or.inr hfirst)
  refine ⟨init.take keep, ?_, fun s tail stop hs => ?_⟩
  · intro heq
    have hlen := congrArg length heq
    rw [length_take, length_append] at hlen
    simp only [length_singleton] at hlen
    omega
  · obtain ⟨stop', hloop⟩ := hrun.valueLoop (s :: tail) stop
    exact ⟨stop', by rw [hloop, nil_append, valueLoop_lf _ _ _ _ hs]⟩

lemma getLast?_quotedText {value : Bytes} (h : (quotedText value).getLast? = some cr) :
    LosesReturn value := by
  unfold quotedText at h
  split_ifs at h with hquo
  · rw [getLast?_concat] at h
    cases h
  refine ⟨?_, by simpa using hquo⟩
  rcases eq_nil_or_concat' value with rfl | ⟨init, b, rfl⟩
  · cases h
  rw [bareText, flatMap_append, flatMap_singleton] at h
  rw [getLast?_concat]
  have hlast : (escapeText b).getLast? = some cr := by
    have hne : escapeText b ≠ [] := by
      unfold escapeText
      split_ifs <;> exact cons_ne_nil _ _
    rwa [getLast?_append_of_ne_nil _ hne] at h
  unfold escapeText at hlast
  split_ifs at hlast with h1 h2 h3 h4
  · rcases h1 with rfl | rfl <;> cases hlast
  · cases hlast
  · cases hlast
  · cases hlast
  · exact hlast

end Girt.Proofs
