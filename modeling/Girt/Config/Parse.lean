import Girt.Lib.LineEnds

/-!
# Reading a configuration file

The parser reads one symbol at a time; a line feed after a carriage return is one symbol. Its
position and its line are counted from the end of the text, so that they do not change when
something before them does.
-/

namespace Girt.Config
open ByteLib LineEnds
open List (suffix_cons suffix_rfl tail_suffix)

variable (b : UInt8)

structure ConfigError where
  line : Nat
  reason : String
  deriving DecidableEq

/-- A failure of the parser: the line ends that were left, and the reason. -/
structure Failure where
  linesLeft : Nat
  reason : String

def failure (rest : List Symbol) (reason : String) : Failure := ⟨newlines rest, reason⟩

structure SectionName where
  sectionBytes : Bytes
  subsection : Option Bytes
  deriving DecidableEq

/-- A header or a variable of the file, in the order of the file. Positions are the bytes that were
left. -/
inductive Item where
  | header (start stop : Nat) (name : SectionName)
  | entry (start valueStart stop linesLeft : Nat) (name : SectionName) (key : Bytes) (value : Option Bytes)
  deriving DecidableEq

def isBlank : Bool := b = 32 || b = 9

def isAlphabetic : Bool := (65 ≤ b && b ≤ 90) || (97 ≤ b && b ≤ 122)

def isAlphanumeric : Bool := isAlphabetic b || (48 ≤ b && b ≤ 57)

def isNameByte : Bool := isAlphanumeric b || b = 45

def isCommentStart : Bool := b = 35 || b = 59

def toLower : UInt8 := if 65 ≤ b ∧ b ≤ 90 then b + 32 else b

def peek (rest : List Symbol) : Option UInt8 := rest.head?.map Symbol.byte

/-- The loops of the parser that take symbols while the next byte satisfies a condition. -/
def skipWhile (accepts : UInt8 → Bool) (rest : List Symbol) : List Symbol := rest.dropWhile (fun s => accepts s.byte)

def takenWhile (accepts : UInt8 → Bool) (rest : List Symbol) : Bytes :=
  (rest.takeWhile (fun s => accepts s.byte)).map Symbol.byte

def space (rest : List Symbol) : List Symbol := skipWhile isBlank rest

def comment (rest : List Symbol) : List Symbol := skipWhile (fun b => b ≠ lf) rest

def name (isVariable : Bool) (rest : List Symbol) : Except Failure (Bytes × List Symbol) := do
  reject (isVariable && !(peek rest).any isAlphabetic) (failure rest "invalid variable name")
  reject (takenWhile isNameByte rest = []) (failure rest "empty name")
  pure (takenWhile isNameByte rest, skipWhile isNameByte rest)

def quotedSubsection : List Symbol → Bytes → Except Failure (Bytes × List Symbol)
  | [], _ => .error (failure [] "unterminated subsection")
  | s :: rest, value =>
    if s.byte = 34 then .ok (value, rest)
    else if s.byte = 92 then
      match rest with
      | [] => .error (failure [] "invalid subsection escape")
      | t :: rest =>
        if t.byte = lf ∨ t.byte = 0 then .error (failure rest "invalid subsection escape")
        else quotedSubsection rest (value ++ [t.byte])
    else if s.byte = lf ∨ s.byte = 0 then .error (failure rest "unterminated subsection")
    else quotedSubsection rest (value ++ [s.byte])

def dottedSubsection : List Symbol → Option Bytes × List Symbol
  | [] => (none, [])
  | s :: rest =>
    if s.byte = 46 then
      (some ((takenWhile (fun b => isNameByte b || b = 46) rest).map toLower),
        skipWhile (fun b => isNameByte b || b = 46) rest)
    else (none, s :: rest)

def subsection (rest : List Symbol) : Except Failure (Option Bytes × List Symbol) :=
  let dotted := dottedSubsection rest
  let separated := (peek dotted.2).any isBlank
  let rest := space dotted.2
  if peek rest = some 34 then do
    reject (!separated) (failure rest "subsection requires whitespace")
    let (value, rest) ← quotedSubsection rest.tail []
    pure (some value, space rest)
  else .ok (dotted.1, rest)

def header (rest : List Symbol) : Except Failure (SectionName × List Symbol) := do
  let (sectionBytes, rest) ← name false rest
  let (subsection, rest) ← subsection rest
  reject (peek rest ≠ some 93) (failure rest.tail "expected ]")
  pure (⟨sectionBytes, subsection⟩, rest.tail)

def escape : Option UInt8 :=
  if b = 110 then some lf else if b = 116 then some 9 else if b = 98 then some 8
  else if b = 92 then some 92 else if b = 34 then some 34 else none

/-- The loop of a value. `keep` is the length of the value without its trailing blanks and `stop`
the position where they begin. -/
def valueLoop : List Symbol → Bytes → Bool → Nat → Nat → Except Failure (Bytes × Nat × List Symbol)
  | [], value, quoted, keep, stop =>
    if quoted then .error (failure [] "unterminated quote") else .ok (value.take keep, stop, [])
  | s :: rest, value, quoted, keep, stop =>
    if s.byte = 0 then .error (failure rest "NUL in value")
    else if s.byte = lf then
      if quoted then .error (failure rest "unterminated quote") else .ok (value.take keep, stop, rest)
    else if s.byte = 34 then valueLoop rest value (!quoted) value.length (widths rest)
    else if isCommentStart s.byte && !quoted then .ok (value.take keep, stop, comment rest)
    else if s.byte = 92 then
      match rest with
      | [] => .error (failure [] "invalid escape")
      | t :: rest =>
        if t.byte = lf then valueLoop rest value quoted value.length (widths rest)
        else
          match escape t.byte with
          | none => .error (failure rest "invalid escape")
          | some b => valueLoop rest (value ++ [b]) quoted (value.length + 1) (widths rest)
    else if isBlank s.byte && !quoted then
      if value = [] then valueLoop rest value quoted keep stop
      else valueLoop rest (value ++ [s.byte]) quoted keep stop
    else valueLoop rest (value ++ [s.byte]) quoted (value.length + 1) (widths rest)

def value (rest : List Symbol) : Except Failure (Bytes × Nat × List Symbol) :=
  valueLoop (space rest) [] false 0 (widths (space rest))

def entry (current : SectionName) (rest : List Symbol) : Except Failure (Item × List Symbol) := do
  reject (current.sectionBytes = []) (failure rest "variable outside section")
  let (key, afterName) ← name true rest
  let after := space afterName
  match peek after with
  | none => pure (.entry (widths rest) (widths afterName) (widths afterName) (newlines rest) current key none, after)
  | some b =>
    if b = 61 then
      let start := space after.tail
      let (value, stop, rest') ← value start
      pure (.entry (widths rest) (widths start) stop (newlines rest) current key (some value), rest')
    else if b = lf || isCommentStart b then
      pure (.entry (widths rest) (widths afterName) (widths afterName) (newlines rest) current key none, after)
    else .error (failure after "expected = or end of variable")

/-- What stands after blanks: a line end, a comment, a header or a variable. -/
def itemAt (current : SectionName) : List Symbol → Except Failure (Option Item × List Symbol)
  | [] => .ok (none, [])
  | s :: rest =>
    if s.byte = lf then .ok (none, rest)
    else if isCommentStart s.byte then .ok (none, comment rest)
    else if s.byte = 91 then do
      let (name, after) ← header rest
      pure (some (.header (widths (s :: rest)) (widths after) name), after)
    else do
      let (found, after) ← entry current (s :: rest)
      pure (some found, after)

def item (current : SectionName) (text : List Symbol) : Except Failure (Option Item × List Symbol) :=
  itemAt current (space text)

def SectionName.after (current : SectionName) : Option Item → SectionName
  | some (.header _ _ name) => name
  | _ => current

section Progress

variable {rest after : List Symbol} {bytes : Bytes}

lemma skipWhile_suffix (accepts : UInt8 → Bool) (rest : List Symbol) :
    skipWhile accepts rest <:+ rest :=
  List.dropWhile_suffix _

lemma space_suffix (rest : List Symbol) : space rest <:+ rest := skipWhile_suffix _ _

lemma name_suffix {isVariable : Bool} (h : name isVariable rest = .ok (bytes, after)) :
    after <:+ rest ∧ after.length < rest.length := by
  simp only [name, bind_ok, reject_ok] at h
  obtain ⟨_, _, _, htook, h⟩ := h
  cases h
  refine ⟨skipWhile_suffix _ _, ?_⟩
  have hcut := congrArg List.length (@List.takeWhile_append_dropWhile _
    (fun s : Symbol => isNameByte s.byte) rest)
  have hpos : 0 < (rest.takeWhile (isNameByte ·.byte)).length := by
    rw [List.length_pos_iff]
    intro hnil
    exact htook (by rw [takenWhile, hnil]; rfl)
  rw [List.length_append] at hcut
  unfold skipWhile
  omega

lemma quotedSubsection_suffix {read : Bytes}
    (h : quotedSubsection rest read = .ok (bytes, after)) : after <:+ rest := by
  fun_induction quotedSubsection rest read with
  | case1 => cases h
  | case2 s rest read hquo =>
    cases h
    exact suffix_cons s _
  | case3 | case4 => cases h
  | case5 s read hquo hesc t rest hpla ih =>
    exact (ih h).trans ((suffix_cons t rest).trans (suffix_cons s _))
  | case6 => cases h
  | case7 s rest read hquo hesc hpla ih => exact (ih h).trans (suffix_cons s rest)

lemma dottedSubsection_suffix (rest : List Symbol) : (dottedSubsection rest).2 <:+ rest := by
  unfold dottedSubsection
  split
  · exact suffix_rfl
  · split_ifs
    · dsimp only
      exact (skipWhile_suffix _ _).trans (suffix_cons _ _)
    · exact suffix_rfl

lemma subsection_suffix {bytes : Option Bytes} (h : subsection rest = .ok (bytes, after)) :
    after <:+ rest := by
  have hsp : space (dottedSubsection rest).2 <:+ rest :=
    (space_suffix _).trans (dottedSubsection_suffix rest)
  simp only [subsection] at h
  split_ifs at h with hquot
  · simp only [bind_ok, reject_ok] at h
    obtain ⟨_, _, ⟨value, quoted⟩, hquo, h⟩ := h
    cases h
    exact (space_suffix _).trans ((quotedSubsection_suffix hquo).trans ((tail_suffix _).trans hsp))
  · cases h
    exact hsp

lemma header_suffix {found : SectionName} (h : header rest = .ok (found, after)) :
    after <:+ rest := by
  simp only [header, bind_ok, reject_ok] at h
  obtain ⟨⟨bytes, afterName⟩, hname, ⟨sub, afterSub⟩, hsub, _, _, h⟩ := h
  cases h
  exact (tail_suffix _).trans ((subsection_suffix hsub).trans (name_suffix hname).1)

lemma valueLoop_suffix {read : Bytes} {quoted : Bool} {keep stop stop' : Nat}
    (h : valueLoop rest read quoted keep stop = .ok (bytes, stop', after)) : after <:+ rest := by
  fun_induction valueLoop rest read quoted keep stop with
  | case1 => cases h
  | case2 =>
    cases h
    exact suffix_rfl
  | case3 | case4 => cases h
  | case5 s rest =>
    cases h
    exact suffix_cons s _
  | case6 s rest _ _ _ _ _ _ _ ih => exact (ih h).trans (suffix_cons s rest)
  | case7 s rest =>
    cases h
    exact (skipWhile_suffix _ _).trans (suffix_cons s rest)
  | case8 => cases h
  | case9 s _ _ _ _ _ _ _ _ _ t rest _ ih =>
    exact (ih h).trans ((suffix_cons t rest).trans (suffix_cons s _))
  | case10 => cases h
  | case11 s _ _ _ _ _ _ _ _ _ t rest _ _ _ ih =>
    exact (ih h).trans ((suffix_cons t rest).trans (suffix_cons s _))
  | case12 s rest _ _ _ _ _ _ _ _ _ ih => exact (ih h).trans (suffix_cons s rest)
  | case13 s rest _ _ _ _ _ _ _ _ _ _ _ ih => exact (ih h).trans (suffix_cons s rest)
  | case14 s rest _ _ _ _ _ _ _ _ _ _ ih => exact (ih h).trans (suffix_cons s rest)

lemma entry_suffix {current : SectionName} {found : Item}
    (h : entry current rest = .ok (found, after)) :
    after <:+ rest ∧ after.length < rest.length := by
  simp only [entry, bind_ok, reject_ok] at h
  obtain ⟨_, _, ⟨bytes, afterName⟩, hname, h⟩ := h
  obtain ⟨hsuf, hlen⟩ := name_suffix hname
  have haf : after <:+ afterName := by
    split at h
    · cases h
      exact space_suffix _
    · split_ifs at h
      · simp only [bind_ok] at h
        obtain ⟨⟨value, stop, rest'⟩, hval, h⟩ := h
        cases h
        exact (valueLoop_suffix hval).trans ((space_suffix _).trans ((space_suffix _).trans
          ((tail_suffix _).trans (space_suffix _))))
      · cases h
        exact space_suffix _
  exact ⟨haf.trans hsuf, lt_of_le_of_lt haf.length_le hlen⟩

lemma item_suffix {current : SectionName} {text : List Symbol} {found : Option Item}
    (h : item current text = .ok (found, after)) :
    after <:+ text ∧ (text ≠ [] → after.length < text.length) := by
  have hsp := space_suffix text
  unfold item at h
  generalize space text = rest at h hsp
  cases rest with
  | nil =>
    cases h
    exact ⟨List.nil_suffix, List.length_pos_iff.mpr⟩
  | cons s rest =>
    have hrest : rest <:+ text := (suffix_cons s rest).trans hsp
    have hlt : rest.length < text.length := hsp.length_le
    simp only [itemAt] at h
    split_ifs at h with hlf hcom hhd
    · cases h
      exact ⟨hrest, fun _ => hlt⟩
    · cases h
      exact ⟨(skipWhile_suffix _ _).trans hrest, fun _ => lt_of_le_of_lt (skipWhile_suffix _ _).length_le hlt⟩
    · simp only [bind_ok] at h
      obtain ⟨⟨name, after⟩, hname, h⟩ := h
      cases h
      exact ⟨(header_suffix hname).trans hrest, fun _ => lt_of_le_of_lt (header_suffix hname).length_le hlt⟩
    · simp only [bind_ok] at h
      obtain ⟨⟨entry, after⟩, hen, h⟩ := h
      cases h
      obtain ⟨hsuf, hlen⟩ := entry_suffix hen
      exact ⟨hsuf.trans hsp, fun _ => lt_of_lt_of_le hlen hsp.length_le⟩

end Progress

def items (current : SectionName) (text : List Symbol) : Except Failure (List Item) :=
  if _hend : text = [] then .ok []
  else
    match _hitem : item current text with
    | .error error => .error error
    | .ok (found, rest) =>
      match items (current.after found) rest with
      | .error error => .error error
      | .ok more => .ok (found.toList ++ more)
termination_by text.length
decreasing_by exact (item_suffix _hitem).2 _hend

def byteOrderMark : Bytes := [0xef, 0xbb, 0xbf]

def textOf (bytes : Bytes) : List Symbol :=
  symbols (if byteOrderMark.isPrefixOf bytes then bytes.drop 3 else bytes)

def parseItems (bytes : Bytes) : Except ConfigError (List Item) :=
  match items ⟨[], none⟩ (textOf bytes) with
  | .error error => .error ⟨1 + (newlines (textOf bytes) - error.linesLeft), error.reason⟩
  | .ok items => .ok items

end Girt.Config
