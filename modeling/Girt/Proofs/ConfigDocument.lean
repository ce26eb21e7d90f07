import Girt.Proofs.ConfigInsert

/-!
# What the edits of a configuration document keep

Each edit changes the entries of a document in one place only, under conditions that are exact.
-/

namespace Girt.Proofs
open ByteLib LineEnds Girt.Config List

/-- The items up to the last entry of the last header whose section matches. -/
def upToSection (matching : SectionName → Bool) : List Item → Option (List Item)
  | [] => none
  | x :: rest =>
    match upToSection matching rest, x with
    | some found, _ => some (x :: found)
    | none, .header _ _ name =>
      if matching name then some (x :: rest.takeWhile (fun x => (assignment x).isSome)) else none
    | none, .entry _ _ _ _ _ _ _ => none

/-- A section has its last header anywhere in a document. Its name is compared without regard to case. -/
def lastMatch (doc : Document) (sec : Bytes) (subsection : Option Bytes) : Option (List Item) :=
  upToSection (fun name => matchesSection sec subsection name.sectionBytes name.subsection) doc.items

/-- Where a new entry of a section belongs, and the section as its header spells it: after the last
entry of the last header, or at the end. -/
def target (doc : Document) (sec : Bytes) (subsection : Option Bytes) : Nat × SectionName :=
  match lastMatch doc sec subsection with
  | none => (doc.entries.length, ⟨sec, subsection⟩)
  | some found => ((found.filterMap assignment).length, contextAfter outside found)

/-- Adding an entry: it is read where it belongs, and all others are kept. -/
def Appended (doc : Document) (sec : Bytes) (subsection : Option Bytes) (key value : Bytes) : Prop :=
  ∃ doc', doc.append sec subsection key value = .ok doc' ∧
    contents doc' = (contents doc).take (target doc sec subsection).1 ++
      ((target doc sec subsection).2, key, some value) ::
        (contents doc).drop (target doc sec subsection).1

/-- The place for a new entry of a section is closed. -/
def HasPlace (doc : Document) (sec : Bytes) (subsection : Option Bytes) : Prop :=
  match lastMatch doc sec subsection with
  | none => ¬ ReturnAtEnd doc
  | some found => ∀ last ∈ found.getLast?, Fits doc (doc.position (stopOf last))

section Append

variable {doc : Document} {sec : Bytes} {subsection : Option Bytes} {key value : Bytes}

variable {matching : SectionName → Bool} {pre ents later : List Item} {start stop : Nat} {name : SectionName}

lemma divided_of_rposition {last : Nat}
    (h : rposition (fun span => matching ⟨span.sectionBytes, span.subsection⟩) doc.sectionSpans = some last) :
    ∃ pre start stop name ents later, Divided doc pre (.header start stop name) ents later ∧
      (pre.filterMap doc.sectionSpan).length = last ∧ matching name ∧
      ∀ start' stop' other, .header start' stop' other ∈ later → matching other = false := by
  obtain ⟨a, span, b, hspa, hlast, hp, hoth⟩ := rposition_eq_some h
  obtain ⟨pre', after', hits, rfl, haf⟩ := filterMap_eq_append_iff.mp hspa
  obtain ⟨between, header, rest, rfl, hbet, hhd, rfl⟩ := filterMap_eq_cons_iff.mp haf
  have hcut := (@takeWhile_append_dropWhile _ (fun x => (assignment x).isSome) rest).symm
  have hnone : between.filterMap doc.sectionSpan = [] := filterMap_eq_nil_iff.mpr hbet
  cases header with
  | entry _ _ _ _ _ _ _ => cases hhd
  | header start stop name =>
    cases hhd
    refine ⟨pre' ++ between, start, stop, name, rest.takeWhile (fun x => (assignment x).isSome),
      rest.dropWhile (fun x => (assignment x).isSome), ⟨?_, ?_, ?_⟩, ?_, hp, ?_⟩
    · conv_lhs => rw [hits, hcut]
      simp
    · intro x hx
      exact @mem_takeWhile_imp _ (fun x => (assignment x).isSome) _ _ hx
    · intro x hx
      have hstop := head?_dropWhile_not (fun x => (assignment x).isSome) rest
      rw [Option.mem_def.mp hx] at hstop
      simpa using hstop
    · rw [filterMap_append, hnone, append_nil, hlast]
    · intro start' stop' other hmem
      have hmem' : .header start' stop' other ∈ rest := (dropWhile_suffix _).subset hmem
      exact hoth _ (mem_filterMap.mpr ⟨_, hmem', rfl⟩)

lemma upToSection_eq_none {l : List Item}
    (h : ∀ start stop name, .header start stop name ∈ l → matching name = false) :
    upToSection matching l = none := by
  induction l with
  | nil => rfl
  | cons x l ih =>
    have hrest := ih fun start stop name hmem => h start stop name (.tail _ hmem)
    cases x with
    | header start stop name => simp [upToSection, hrest, h start stop name (.head _)]
    | entry _ _ _ _ _ _ _ => simp [upToSection, hrest]

lemma upToSection_eq_some (h : Divided doc pre (.header start stop name) ents later)
    (hmat : matching name)
    (hoth : ∀ start' stop' other, .header start' stop' other ∈ later → matching other = false) :
    upToSection matching doc.items = some (pre ++ .header start stop name :: ents) := by
  have hents : (ents ++ later).takeWhile (fun x => (assignment x).isSome) = ents := by
    rw [takeWhile_append_of_pos h.entries]
    cases later with
    | nil => simp
    | cons x later => simp [h.later x rfl]
  have hnone : upToSection matching (ents ++ later) = none := by
    refine upToSection_eq_none fun start stop other hmem => ?_
    rcases mem_append.mp hmem with hmem | hmem
    · cases h.entries _ hmem
    · exact hoth start stop other hmem
  rw [h.items]
  clear h
  induction pre with
  | nil => simp [upToSection, hnone, hmat, hents]
  | cons x pre ih => simp [upToSection, ih]

lemma contextAfter_divided (h : Divided doc pre (.header start stop name) ents later) :
    contextAfter outside (pre ++ .header start stop name :: ents) = name := by
  unfold contextAfter
  rw [foldl_append, foldl_cons]
  have hens := h.entries
  clear h
  induction ents with
  | nil => rfl
  | cons x ents ih =>
    have hx := hens x (.head _)
    cases x with
    | header _ _ _ => cases hx
    | entry _ _ _ _ _ _ _ => exact ih (fun y hy => hens y (.tail _ hy))

lemma anchored_of_divided (h : Divided doc pre (.header start stop name) ents later)
    (hmat : matching name)
    (hoth : ∀ start' stop' other, .header start' stop' other ∈ later → matching other = false) :
    ∃ init x c tail, pre ++ .header start stop name :: ents = init ++ [x] ∧
      x = (.header start stop name :: ents).getLast (List.cons_ne_nil _ _) ∧
      Anchored doc matching init x later name c tail := by
  have hlast := dropLast_append_getLast (cons_ne_nil (.header start stop name) ents)
  have hcut : pre ++ .header start stop name :: ents =
      (pre ++ (.header start stop name :: ents).dropLast) ++
        [(.header start stop name :: ents).getLast (cons_ne_nil _ _)] := by
    rw [append_assoc, hlast]
  have hits : doc.items = (pre ++ (.header start stop name :: ents).dropLast) ++
      (.header start stop name :: ents).getLast (cons_ne_nil _ _) :: later := by
    rw [h.items, append_cons, ← append_cons, ← cons_append, ← append_assoc, hcut]
    simp
  have hok := items_eq_ok doc
  have hnam : name.sectionBytes ≠ [] := by
    rw [h.items] at hok
    obtain ⟨_, _, _, -, hitem, -, -⟩ := items_reach hok
    exact (item_header hitem).1
  have hcon := contextAfter_divided h
  rw [hits] at hok
  obtain ⟨c, tail, hne, htext, hstop, hrest, hcl, hread⟩ := items_after hok
  rw [← hcut, hcon] at hrest
  refine ⟨_, _, c, tail, hcut, rfl, hits, hne, htext, hstop, hrest, hcl, ?_, hnam, hmat, h.later, hoth⟩
  intro tail' htail'
  rw [hread tail' htail', ← hcut, hcon]

/-- Adding an entry works exactly where there is a place for it and the value keeps its last byte. -/
lemma append_cases (hsec : ValidSection sec subsection) (hkey : ValidName key) (hval : 0 ∉ value) :
    Appended doc sec subsection key value ↔ HasPlace doc sec subsection ∧ ¬ LosesReturn value := by
  unfold Appended HasPlace target
  cases hlast : rposition (fun span => matchesSection sec subsection span.sectionBytes span.subsection)
      doc.sectionSpans with
  | none =>
    have hmat : lastMatch doc sec subsection = none := by
      refine upToSection_eq_none fun start stop name hmem => ?_
      have hnone := findIdx?_eq_none_iff.mp (Option.map_eq_none_iff.mp hlast)
      exact hnone _ (mem_reverse.mpr (mem_filterMap.mpr ⟨_, hmem, rfl⟩))
    have happ : doc.append sec subsection key value =
        doc.appendSection sec subsection [(key, value)] := by
      rw [Document.append, validateVariableName_eq hkey]
      simp only [bind, Except.bind, hlast]
    have hlen : doc.entries.length = (contents doc).length := (length_map _).symm
    have hcas := @appendSection_cases doc sec subsection [(key, value)] hsec
      (by simpa using ⟨hkey, hval⟩)
    rw [hmat]
    rw [happ, hlen, take_length, drop_length, and_comm]
    simpa [SectionAppended] using hcas
  | some last =>
    obtain ⟨pre, start, stop, name, ents, later, hdiv, rfl, hp, hoth⟩ := @divided_of_rposition doc
      (fun name => matchesSection sec subsection name.sectionBytes name.subsection) _ hlast
    obtain ⟨span, hspan⟩ : ∃ span, doc.sectionSpan (.header start stop name) = some span := ⟨_, rfl⟩
    have hget : doc.sectionSpans[(pre.filterMap doc.sectionSpan).length]? = some span := by
      rw [Document.sectionSpans, hdiv.items, filterMap_append, filterMap_cons_some hspan,
        getElem?_append_right le_rfl, Nat.sub_self]
      rfl
    have hmat : lastMatch doc sec subsection = some (pre ++ .header start stop name :: ents) :=
      upToSection_eq_some hdiv hp hoth
    obtain ⟨init, x, c, tail, hinit, hx, hanc⟩ := anchored_of_divided hdiv hp hoth
    have hanch : doc.anchor (pre.filterMap doc.sectionSpan).length span = doc.position (stopOf x) := by
      rw [anchor_eq hdiv hspan, hx]
    have happ : doc.append sec subsection key value =
        Document.parse (insertedBytes doc (doc.position (stopOf x)) (lineText key value)) := by
      rw [Document.append, validateVariableName_eq hkey]
      simp only [bind, Except.bind, hlast, hget, hanch, assignmentLine_eq hval]
      rfl
    have hcon := contents_anchored hanc
    have hiff := inserted_iff hanc hkey hval
    rw [hmat]
    simp only [contextAfter_divided hdiv]
    rw [hinit, hcon, take_left, drop_left, happ, getLast?_concat]
    simp only [Option.mem_def, Option.some.injEq, forall_eq']
    exact hiff

end Append

/-- Every value that is written is read back, and nothing else changes: for a value that is set unless
it ends bare with a carriage return before a line feed, for an entry that is added where it has a place,
and for a section that is added unless the document ends with a carriage return of its last value. -/
theorem config_values_read_back (document : Document) :
    (∀ occurrence < document.entries.length, ∀ value : Bytes, 0 ∉ value →
      (ValueSet document occurrence value ↔ ¬ (LosesReturn value ∧ FollowedByLineFeed document occurrence))) ∧
    (∀ sectionBytes subsection key value, ValidSection sectionBytes subsection → ValidName key → 0 ∉ value →
      (Appended document sectionBytes subsection key value ↔
        HasPlace document sectionBytes subsection ∧ ¬ LosesReturn value)) ∧
    ∀ sectionBytes subsection entries, ValidSection sectionBytes subsection →
      (∀ entry ∈ entries, ValidName entry.1 ∧ 0 ∉ entry.2) →
      (SectionAppended document sectionBytes subsection entries ↔
        (∀ entry ∈ entries, ¬ LosesReturn entry.2) ∧ ¬ ReturnAtEnd document) := by
  refine ⟨fun occurrence hocc value hval => ?_, fun _ _ _ _ hsec hkey hval => append_cases hsec hkey hval,
    fun _ _ _ hsec hens => appendSection_cases hsec hens⟩
  obtain ⟨before, found, later, hits, hgot, hlen⟩ :=
    exists_of_filterMap_getElem? (getElem?_eq_getElem (show occurrence < (document.items.filterMap assignment).length by
      rw [← contents_eq, contents, length_map]
      exact hocc))
  cases found with
  | header _ _ _ => cases hgot
  | entry start valueStart stop lines name key old =>
    rw [← hlen]
    exact setValue_cases hits hval

def sampleDocument : Document :=
  ⟨ascii "[core]\nx = old\n", [.header 15 9 ⟨ascii "core", none⟩, .entry 8 4 1 1 ⟨ascii "core", none⟩ (ascii "x") (some (ascii "old"))],
    by decide +kernel⟩

theorem config_values_read_back_sample :
    (ValueSet sampleDocument 0 (ascii " new") ↔
      ¬ (LosesReturn (ascii " new") ∧ FollowedByLineFeed sampleDocument 0)) ∧
    (Appended sampleDocument (ascii "core") (some (ascii "a b")) (ascii "y") (ascii "1") ↔
      HasPlace sampleDocument (ascii "core") (some (ascii "a b")) ∧ ¬ LosesReturn (ascii "1")) :=
  ⟨(config_values_read_back sampleDocument).1 0 (by decide) (ascii " new") (by decide),
    (config_values_read_back sampleDocument).2.1 (ascii "core") (some (ascii "a b")) (ascii "y") (ascii "1")
      ⟨by decide, by decide, by decide⟩ ⟨by decide, by decide⟩ (by decide)⟩

/-- A carriage return at the end of a value that is set is not read back. -/
theorem setValue_loses_return :
    (Document.parse (ascii "[core]\nx = old\n") >>= fun document => document.setValue 0 (ascii "a\r")).toOption.map contents =
      some [(⟨ascii "core", none⟩, ascii "x", some (ascii "a"))] := by
  decide +kernel

/-- An entry whose value has no carriage return is added to its section and changes nothing else, exactly
if there is a place for it. -/
theorem append_inserts_entry (document : Document) {sectionBytes : Bytes}
    {subsection : Option Bytes} {key value : Bytes}
    (hsection : ValidSection sectionBytes subsection) (hkey : ValidName key) (hvalue : 0 ∉ value)
    (hreturn : cr ∉ value) :
    Appended document sectionBytes subsection key value ↔
      HasPlace document sectionBytes subsection := by
  have hkept : ¬ LosesReturn value := fun hlos => hreturn (mem_of_getLast? hlos.1)
  rw [append_cases hsection hkey hvalue]
  exact ⟨fun hboth => hboth.1, fun hpla => ⟨hpla, hkept⟩⟩

/-- An entry that is added to a section is one of the section whose header follows on the line. -/
theorem append_into_other_section :
    (Document.parse (ascii "[a] [b]\n") >>= fun document => document.append (ascii "a") none (ascii "x") (ascii "1")).toOption.map
      contents = some [(⟨ascii "b", none⟩, ascii "x", some (ascii "1"))] := by
  decide +kernel

theorem append_inserts_entry_sample :
    (Appended sampleDocument (ascii "core") (some (ascii "a b")) (ascii "x") (ascii "1") ↔
      HasPlace sampleDocument (ascii "core") (some (ascii "a b"))) ∧
    (Appended sampleDocument (ascii "core") none (ascii "x") (ascii "1") ↔ HasPlace sampleDocument (ascii "core") none) := by
  constructor <;>
    exact append_inserts_entry sampleDocument ⟨by decide, by decide, by decide⟩
      ⟨by decide, by decide⟩ (by decide) (by decide)

end Girt.Proofs
