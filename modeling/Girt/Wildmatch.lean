import Girt.Lib.Glob
import Girt.Lib.Lines
import Girt.Object

/-!
# Byte globs

The matcher that pathspecs and include conditions share. It goes over the pattern once and keeps
one row of cells, one for each position of the text.
-/

namespace Girt.Wildmatch
open ByteLib GlobLib Pieces

section Ascii

variable (b : UInt8)

def isUppercase : Bool := 65 ≤ b && b ≤ 90

def isLowercase : Bool := 97 ≤ b && b ≤ 122

def isAlphabetic : Bool := isUppercase b || isLowercase b

def isDigit : Bool := 48 ≤ b && b ≤ 57

def isGraphic : Bool := 33 ≤ b && b ≤ 126

def isControl : Bool := b ≤ 31 || b == 127

def isPunctuation : Bool :=
  (33 ≤ b && b ≤ 47) || (58 ≤ b && b ≤ 64) || (91 ≤ b && b ≤ 96) || (123 ≤ b && b ≤ 126)

def isWhitespace : Bool := b == 32 || b == 9 || b == 10 || b == 12 || b == 13

def isHexdigit : Bool := isDigit b || (65 ≤ b && b ≤ 70) || (97 ≤ b && b ≤ 102)

def toLowercase : UInt8 := if isUppercase b then b + 32 else b

def toUppercase : UInt8 := if isLowercase b then b - 32 else b

def eqIgnoreCase (a b : UInt8) : Bool := toLowercase a == toLowercase b

end Ascii

def saturatingAdd (a b : Nat) : Nat := min (a + b) usizeMax

def saturatingMul (a b : Nat) : Nat := min (a * b) usizeMax

/-- The cells of all rows for a pattern and a text of these lengths. -/
def cellCount (pattern text : Nat) : Nat := saturatingMul (saturatingAdd pattern 1) (saturatingAdd text 1)

section Class

def named (name : Bytes) (byte : UInt8) : Option Bool :=
  if name = ascii "alnum" then some (isAlphabetic byte || isDigit byte)
  else if name = ascii "alpha" then some (isAlphabetic byte)
  else if name = ascii "blank" then some (byte == 32 || byte == 9)
  else if name = ascii "cntrl" then some (isControl byte)
  else if name = ascii "digit" then some (isDigit byte)
  else if name = ascii "graph" then some (isGraphic byte)
  else if name = ascii "lower" then some (isLowercase byte)
  else if name = ascii "print" then some (isGraphic byte || byte == 32)
  else if name = ascii "punct" then some (isPunctuation byte)
  else if name = ascii "space" then some (isWhitespace byte)
  else if name = ascii "upper" then some (isUppercase byte)
  else if name = ascii "xdigit" then some (isHexdigit byte)
  else none

/-- Splits a leading `[:name:]` into its name and what follows. The first `]` closes the name. -/
def namedClass : Bytes → Option (Bytes × Bytes)
  | opening :: colon :: body =>
    if opening = 91 ∧ colon = 58 then
      match splitOnce body 93 with
      | none => none
      | some (name, after) => if name.getLast? = some 58 then some (name.dropLast, after) else none
    else none
  | _ => none

/-- Splits one member; a backslash takes the byte after it when there is one. -/
def classByte : Bytes → Option (UInt8 × Bytes)
  | [] => none
  | [byte] => some (byte, [])
  | byte :: next :: rest => if byte = 92 then some (next, rest) else some (byte, next :: rest)

/-- What follows the end of a range, or the bytes themselves when they do not continue one. -/
def afterRange : Bytes → Bytes
  | dash :: first :: range =>
    if dash = 45 ∧ first ≠ 93 then ((classByte (first :: range)).map Prod.snd).getD (dash :: first :: range)
    else dash :: first :: range
  | after => after

/-- What follows one member of a class, with the range that it starts. -/
def skipMember (rest : Bytes) : Option Bytes :=
  match namedClass rest with
  | some (_, after) => some after
  | none => (classByte rest).map fun (_, after) => afterRange after

lemma namedClass_length {rest name after : Bytes} (h : namedClass rest = some (name, after)) :
    after.length < rest.length := by
  match rest, h with
  | opening :: colon :: body, h =>
    simp only [namedClass, splitOnce] at h
    split at h
    · cases hat : body.findIdx? (· == 93) with
      | none => simp [hat] at h
      | some position =>
        simp only [hat, Option.map_some] at h
        split at h
        · cases h
          simp only [List.length_drop, List.length_cons]
          omega
        · cases h
    · cases h

lemma classByte_length {rest after : Bytes} {byte : UInt8}
    (h : classByte rest = some (byte, after)) : after.length < rest.length := by
  match rest, h with
  | [_], h => cases h; simp
  | first :: next :: rest, h =>
    simp only [classByte] at h
    split at h <;> cases h <;> simp only [List.length_cons] <;> omega

lemma afterRange_length (after : Bytes) : (afterRange after).length ≤ after.length := by
  match after with
  | [] => simp [afterRange]
  | [_] => simp [afterRange]
  | dash :: first :: range =>
    simp only [afterRange]
    split
    · cases hbyte : classByte (first :: range) with
      | none => simp
      | some pair =>
        have := classByte_length hbyte
        simp only [Option.map_some, Option.getD_some, List.length_cons] at this ⊢
        omega
    · exact le_rfl

lemma skipMember_length {rest after : Bytes} (h : skipMember rest = some after) :
    after.length < rest.length := by
  unfold skipMember at h
  split at h
  · rename_i hnam
    cases h
    exact namedClass_length hnam
  · cases hbyte : classByte rest with
    | none => simp [hbyte] at h
    | some pair =>
      simp only [hbyte, Option.map_some, Option.some.injEq] at h
      have := classByte_length hbyte
      have := afterRange_length pair.2
      subst h
      omega

/-- The rest of a pattern from the `]` that closes a class; a leading `]` is a member. -/
def classRest (first : Bool) (rest : Bytes) : Option Bytes :=
  if first = false ∧ rest.head? = some 93 then some rest
  else
    match _h : skipMember rest with
    | none => none
    | some after => classRest false after
termination_by rest.length
decreasing_by exact skipMember_length _h

def isNegative (body : Bytes) : Bool := body.head? == some 33 || body.head? == some 94

def withoutNegation (body : Bytes) : Bytes := if isNegative body then body.drop 1 else body

/-- The members of the class that a body starts with, and what follows the `]` that closes it. -/
def classEnd (body : Bytes) : Option (Bytes × Bytes) :=
  (classRest true (withoutNegation body)).map fun rest => (body.take (body.length - rest.length), rest.drop 1)

/-- The end of the range that a member starts. -/
def rangeEnd : Bytes → Option (UInt8 × Bytes)
  | [] => none
  | dash :: range => if dash = 45 then classByte range else none

def namedEither (name : Bytes) (lower upper : UInt8) : Option Bool :=
  (named name lower).bind fun found => if found then some true else named name upper

lemma rangeEnd_length {rest after : Bytes} {last : UInt8} (h : rangeEnd rest = some (last, after)) :
    after.length < rest.length := by
  match rest, h with
  | dash :: range, h =>
    simp only [rangeEnd] at h
    split at h
    · have := classByte_length h
      simp only [List.length_cons]
      omega
    · cases h

def classMembers (lower upper : UInt8) (found : Bool) (pattern : Bytes) : Option Bool :=
  match _hn : namedClass pattern with
  | some (name, after) =>
    match namedEither name lower upper with
    | none => none
    | some hit => classMembers lower upper (found || hit) after
  | none =>
    match _hb : classByte pattern with
    | none => some found
    | some (first, rest) =>
      match _hr : rangeEnd rest with
      | some (last, after) =>
        classMembers lower upper
          (found || (first ≤ lower && lower ≤ last) || (first ≤ upper && upper ≤ last)) after
      | none => classMembers lower upper (found || first == lower) rest
termination_by pattern.length
decreasing_by
  · exact namedClass_length _hn
  · exact (rangeEnd_length _hr).trans (classByte_length _hb)
  · exact classByte_length _hb

/-- Whether a class has a byte, or nothing when it names an unknown class. -/
def classHas (members : Bytes) (byte : UInt8) (fold : Bool) : Option Bool :=
  let (lower, upper) := if fold then (toLowercase byte, toUppercase byte) else (byte, byte)
  (classMembers lower upper false (withoutNegation members)).map (· != isNegative members)

/-- The cell after a class, from the cell and the byte before it. -/
def classCell (members : Bytes) (fold pathname : Bool) (cell : Bool) (byte : UInt8) : Option Bool :=
  if cell && (!pathname || byte != 47) then classHas members byte fold else some false

/-- The row after a class. An unknown class that is looked up rejects the whole pattern. -/
def classRow (members : Bytes) (fold pathname : Bool) (text : Bytes) (previous : List Bool) : Option (List Bool) :=
  ((previous.zip text).mapM fun pair => classCell members fold pathname pair.1 pair.2).map (false :: ·)

end Class

lemma classRest_length {first : Bool} {rest tail : Bytes} (h : classRest first rest = some tail) :
    tail.length ≤ rest.length := by
  fun_induction classRest first rest with
  | case1 first rest _ => cases h; exact le_rfl
  | case2 => cases h
  | case3 first rest _ after hskip ih => exact (ih h).trans (skipMember_length hskip).le

lemma classEnd_length {body members after : Bytes} (h : classEnd body = some (members, after)) :
    after.length ≤ body.length := by
  cases hrest : classRest true (withoutNegation body) with
  | none => simp [classEnd, hrest] at h
  | some rest =>
    have hle := classRest_length hrest
    simp only [classEnd, hrest, Option.map_some, Option.some.injEq, Prod.mk.injEq] at h
    have hbody : (withoutNegation body).length ≤ body.length := by
      unfold withoutNegation
      split <;> simp
    obtain ⟨-, rfl⟩ := h
    simp only [List.length_drop]
    omega

/-- The rows from some pattern byte on; `before` is the pattern byte before it. -/
def rows (fold pathname : Bool) (text : Bytes) (before : Option UInt8) (pattern : Bytes)
    (previous : List Bool) : Bool :=
  match pattern with
  | [] => previous.getD text.length false
  | byte :: rest =>
    if byte = 42 then
      let after := rest.dropWhile (· == 42)
      let recursive := pathname && rest.head? == some 42 && (before == none || before == some 47) &&
        (after == [] || after.head? == some 47)
      if recursive && after.head? == some 47 then
        rows fold pathname text (some 47) (after.drop 1) (upToRow (· == 47) text previous)
      else
        rows fold pathname text (some 42) after
          (manyRow (fun b => !pathname || recursive || b != 47) text previous)
    else if byte = 63 then
      rows fold pathname text (some 63) rest (oneRow (fun b => !pathname || b != 47) text previous)
    else if byte = 91 then
      match _h : classEnd rest with
      | none => false
      | some (members, after) =>
        match classRow members fold pathname text previous with
        | none => false
        | some next => rows fold pathname text (some 93) after next
    else if byte = 92 then
      match rest with
      | [] => false
      | literal :: rest =>
        rows fold pathname text (some literal) rest
          (oneRow (fun b => b == literal || (fold && eqIgnoreCase b literal)) text previous)
    else
      rows fold pathname text (some byte) rest
        (oneRow (fun b => b == byte || (fold && eqIgnoreCase b byte)) text previous)
termination_by pattern.length
decreasing_by
  all_goals simp only [List.length_cons, List.length_drop]
  · have := (List.dropWhile_suffix (l := rest) (· == 42)).length_le
    omega
  · have := (List.dropWhile_suffix (l := rest) (· == 42)).length_le
    omega
  · omega
  · have := classEnd_length _h
    omega
  · omega
  · omega

/-- Matches a text, or gives nothing when the rows would have more cells than allowed. -/
def matchesWithPathname (pattern text : Bytes) (fold : Bool) (cells : Nat) (pathname : Bool) : Option Bool :=
  if cellCount pattern.length text.length > cells then none
  else some (rows fold pathname text none pattern (firstRow text))

end Girt.Wildmatch
