import Girt.Wildmatch

/-!
# Compiled ignore and attribute patterns

A pattern is compiled to tokens once, and a class to the set of its bytes. Patterns without
wildcards, and a star before a literal, are matched without rows.
-/

namespace Girt.Ignore
open ByteLib GlobLib Pieces Wildmatch

inductive Case where
  | sensitive
  | asciiInsensitive
  deriving DecidableEq

variable (case : Case)

inductive Error where
  | limit (what : String)
  deriving DecidableEq

inductive Token where
  | byte (b : UInt8)
  | any
  | star
  | recursive
  | directories
  | set (bits : BitVec 256)
  deriving DecidableEq

inductive Expression where
  | invalid
  | literal (bytes : Bytes)
  | glob (tokens : List Token)
  deriving DecidableEq

structure Pattern where
  negative : Bool
  directory : Bool
  anchored : Bool
  case : Case
  expression : Expression
  deriving DecidableEq

def charge (work cost : Nat) : Except Error Nat :=
  if cost ≤ work then .ok (work - cost) else .error (.limit "matching work")

section Class

/-- Adds the bit of a byte, and without case the bits of both its cases. -/
def insert (bits : BitVec 256) (byte : UInt8) : Case → BitVec 256
  | .sensitive => bits ||| BitVec.twoPow 256 byte.toNat
  | .asciiInsensitive =>
    bits ||| BitVec.twoPow 256 byte.toNat ||| BitVec.twoPow 256 (toLowercase byte).toNat |||
      BitVec.twoPow 256 (toUppercase byte).toNat

def allBytes : List UInt8 := (List.range 256).map UInt8.ofNat

def insertWhere (predicate : UInt8 → Bool) (bits : BitVec 256) (case : Case) : BitVec 256 :=
  (allBytes.filter predicate).foldl (fun bits byte => insert bits byte case) bits

def namedSet (name : Bytes) : Option (UInt8 → Bool) :=
  if name = ascii "alnum" then some fun b => isAlphabetic b || isDigit b
  else if name = ascii "alpha" then some isAlphabetic
  else if name = ascii "blank" then some fun b => b == 32 || b == 9
  else if name = ascii "cntrl" then some isControl
  else if name = ascii "digit" then some isDigit
  else if name = ascii "graph" then some isGraphic
  else if name = ascii "lower" then some isLowercase
  else if name = ascii "print" then some fun b => isGraphic b || b == 32
  else if name = ascii "punct" then some isPunctuation
  else if name = ascii "space" then some isWhitespace
  else if name = ascii "upper" then some isUppercase
  else if name = ascii "xdigit" then some isHexdigit
  else none

/-- One member of a class; a backslash needs a byte after it. -/
def memberByte : Bytes → Option (UInt8 × Bytes)
  | [] => none
  | byte :: rest =>
    if byte = 92 then
      match rest with
      | [] => none
      | escaped :: rest => some (escaped, rest)
    else some (byte, rest)

/-- Whether a member is the low end of a range: a dash follows it, and no `]` follows the dash. -/
def startsRange : Bytes → Bool
  | dash :: high :: _ => dash == 45 && high != 93
  | _ => false

lemma memberByte_length {rest after : Bytes} {byte : UInt8}
    (h : memberByte rest = some (byte, after)) : after.length < rest.length := by
  match rest, h with
  | [first], h =>
    simp only [memberByte] at h
    split at h <;> cases h
    simp
  | first :: next :: rest, h =>
    simp only [memberByte] at h
    split at h <;> cases h <;> simp only [List.length_cons] <;> omega

/-- The bits of a class and what follows the `]` that closes it. -/
def classFrom (case : Case) (negative first : Bool) (bits : BitVec 256) (rest : Bytes) :
    Option (BitVec 256 × Bytes) :=
  if rest.head? = some 93 ∧ first = false then some (if negative then ~~~bits else bits, rest.drop 1)
  else
    match _hn : namedClass rest with
    | some (name, after) =>
      match namedSet name with
      | none => none
      | some predicate => classFrom case negative false (insertWhere predicate bits case) after
    | none =>
      match _hl : memberByte rest with
      | none => none
      | some (low, next) =>
        if startsRange next then
          match _hh : memberByte (next.drop 1) with
          | none => none
          | some (high, next) =>
            classFrom case negative false (insertWhere (fun b => low ≤ b && b ≤ high) bits case) next
        else classFrom case negative false (insert bits low case) next
termination_by rest.length
decreasing_by
  · exact namedClass_length _hn
  · have := memberByte_length _hl
    have := memberByte_length _hh
    simp only [List.length_drop] at this
    omega
  · exact memberByte_length _hl

def classBits (case : Case) (body : Bytes) : Option (BitVec 256 × Bytes) :=
  classFrom case (isNegative body) true 0 (withoutNegation body)

lemma classFrom_length {case : Case} {negative first : Bool} {bits bits' : BitVec 256}
    {rest after : Bytes} (h : classFrom case negative first bits rest = some (bits', after)) :
    after.length ≤ rest.length := by
  fun_induction classFrom case negative first bits rest with
  | case1 => cases h; simp
  | case2 => cases h
  | case3 _ _ _ _ _ _ hn _ _ ih => exact (ih h).trans (namedClass_length hn).le
  | case4 | case5 => cases h
  | case6 _ _ _ _ _ _ _ hl _ _ _ hh ih =>
    have := memberByte_length hl
    have := memberByte_length hh
    have := ih h
    simp only [List.length_drop] at *
    omega
  | case7 _ _ _ _ _ _ _ hl _ ih => exact (ih h).trans (memberByte_length hl).le

lemma classBits_length {case : Case} {bits : BitVec 256} {body after : Bytes}
    (h : classBits case body = some (bits, after)) : after.length ≤ body.length := by
  refine (classFrom_length h).trans ?_
  unfold withoutNegation
  split <;> simp

end Class

/-- The tokens from some pattern byte on; `before` is the pattern byte before it. -/
def tokensFrom (case : Case) (before : Option UInt8) (pattern : Bytes) : Option (List Token) :=
  match pattern with
  | [] => some []
  | byte :: rest =>
    if byte = 92 then
      match rest with
      | [] => none
      | escaped :: rest => (tokensFrom case (some escaped) rest).map (.byte escaped :: ·)
    else if byte = 63 then (tokensFrom case (some 63) rest).map (.any :: ·)
    else if byte = 42 then
      let after := rest.dropWhile (· == 42)
      let recursive := rest.head? == some 42 && (before == none || before == some 47) &&
        (after == [] || [47].isPrefixOf after || [92, 47].isPrefixOf after)
      if recursive && after.head? == some 47 then
        (tokensFrom case (some 47) (after.drop 1)).map (.directories :: ·)
      else
        (tokensFrom case (some 42) after).map ((if recursive then .recursive else .star) :: ·)
    else if byte = 91 then
      match _h : classBits case rest with
      | none => none
      | some (bits, after) => (tokensFrom case (some 93) after).map (.set bits :: ·)
    else (tokensFrom case (some byte) rest).map (.byte byte :: ·)
termination_by pattern.length
decreasing_by
  all_goals simp only [List.length_cons, List.length_drop]
  · omega
  · omega
  · have := (List.dropWhile_suffix (l := rest) (· == 42)).length_le
    omega
  · have := (List.dropWhile_suffix (l := rest) (· == 42)).length_le
    omega
  · have := classBits_length _h
    omega
  · omega

def Token.byte? : Token → Option UInt8
  | .byte b => some b
  | _ => none

def equalByte (expected actual : UInt8) : Bool :=
  match case with
  | .sensitive => expected == actual
  | .asciiInsensitive => eqIgnoreCase expected actual

def equalBytes (expected actual : Bytes) : Bool :=
  match case with
  | .sensitive => expected == actual
  | .asciiInsensitive => expected.length == actual.length && (expected.zip actual).all fun (a, b) => eqIgnoreCase a b

def literalStart (case : Case) : List Token → Bytes → Nat → Except Error (Bool × Nat)
  | .byte expected :: tokens, text, work => do
    let work ← charge work 1
    match text with
    | [] => .ok (false, work)
    | actual :: text => if equalByte case expected actual then literalStart case tokens text work else .ok (false, work)
  | _, _, work => .ok (true, work)

/-- Decides a star before literal bytes, and nothing else. -/
def suffix (tokens : List Token) (text : Bytes) : Option Bool :=
  match tokens with
  | .star :: literal =>
    match literal.mapM Token.byte? with
    | none => none
    | some bytes =>
      if bytes.length > text.length then some false
      else
        let head := text.take (text.length - bytes.length)
        let tail := text.drop (text.length - bytes.length)
        some ((bytes.zip tail).all (fun (expected, actual) => equalByte case expected actual) && !head.contains 47)
  | _ => none

def Token.row (token : Token) (text : Bytes) (previous : List Bool) : List Bool :=
  match token with
  | .star => manyRow (· != 47) text previous
  | .recursive => manyRow (fun _ => true) text previous
  | .directories => upToRow (· == 47) text previous
  | .byte expected => oneRow (equalByte case expected) text previous
  | .any => oneRow (· != 47) text previous
  | .set bits => oneRow (fun b => b != 47 && bits.getLsbD b.toNat) text previous

def glob (tokens : List Token) (text : Bytes) : Bool :=
  (tokens.foldl (fun previous token => token.row case text previous) (firstRow text)).getD text.length false

def Expression.matches (text : Bytes) (work : Nat) : Expression → Except Error (Bool × Nat)
  | .invalid => .ok (false, work)
  | .literal bytes => .ok (equalBytes case bytes text, work)
  | .glob tokens => do
    let (started, work) ← literalStart case tokens text work
    if started = false then return (false, work)
    let work ← charge work (cellCount tokens.length text.length)
    return ((suffix case tokens text).getD (Ignore.glob case tokens text), work)

def baseName (path : Bytes) : Bytes := (path.reverse.takeWhile (· != 47)).reverse

def Pattern.matches (pattern : Pattern) (path : Bytes) (directory : Bool) (work : Nat) :
    Except Error (Bool × Nat) := do
  if pattern.directory && !directory then return (false, work)
  let work ← charge work path.length
  pattern.expression.matches pattern.case (if pattern.anchored then path else baseName path) work

end Girt.Ignore
