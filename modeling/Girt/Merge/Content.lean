import Mathlib.Data.List.DropRight
import Girt.Lib.Lines
import Girt.ContentDiff.Compact

/-!
# Merging contents

Two comparisons with the base are walked together. Edits of either side that overlap or touch form one
region, which is resolved when one side changed it or both changed it alike; the rest is taken over.
-/

namespace Girt.Merge
open ByteLib Pieces ContentDiff

inductive Favor where
  | conflict
  | ours
  | theirs
  | union
  deriving DecidableEq

inductive Whitespace where
  | exact
  | ignoreSpaceChange
  | ignoreAllSpace
  | ignoreSpaceAtEol
  | ignoreCrAtEol
  deriving DecidableEq

structure ContentOptions where
  binary : BinaryMode
  favor : Favor
  whitespace : Whitespace
  limits : DiffLimits

inductive ContentHunk where
  | resolved (bytes : Bytes)
  | conflict (base ours theirs : Bytes)
  deriving DecidableEq

structure ContentMerge where
  hunks : List ContentHunk
  binary : Bool

section Whitespace

def isAsciiWhitespace (byte : UInt8) : Bool := byte = 32 || byte = 9 || byte = 10 || byte = 12 || byte = 13

def withoutLast (bytes : Bytes) (last : UInt8) : Bytes :=
  if bytes.getLast? = some last then bytes.dropLast else bytes

/-- The bytes of a line outside runs of space; a run before a byte is kept as one space if asked for. -/
def collapse (single : Bool) : Bool → Bytes → Bytes
  | _, [] => []
  | space, byte :: rest =>
    if isAsciiWhitespace byte then collapse single true rest
    else (if space && single then [32, byte] else [byte]) ++ collapse single false rest

def lineKey (policy : Whitespace) (body : Bytes) : Bytes :=
  match policy with
  | .exact => body
  | .ignoreSpaceAtEol => body.rdropWhile isAsciiWhitespace
  | .ignoreCrAtEol => withoutLast body 13
  | .ignoreSpaceChange => collapse true false body
  | .ignoreAllSpace => collapse false false body

/-- Keys of lines for comparison, and where the lines end. -/
structure Keys where
  bytes : Bytes
  offsets : List Nat

/-- A flag keeps a record for every line and tells a final terminator from the end. -/
def recordKey (policy : Whitespace) (line : Bytes) : Bytes :=
  lineKey policy (withoutLast line 10) ++ [if line.getLast? = some 10 then 1 else 0, 10]

def keys (input : Bytes) (policy : Whitespace) (limits : DiffLimits) : Except DiffError Keys := do
  let lines := splitInclusive 10 input
  reject (limits.maxLines < lines.length) (.limit .lines)
  return ⟨lines.flatMap (recordKey policy), (List.range (lines.length + 1)).map fun i => (lines.take i).flatten.length⟩

def unpack : Outcome → List ContentEdit × Bool
  | .text edits => (edits, false)
  | .binary => ([], true)
  | .unchanged => ([], false)

/-- An edit of keys in terms of the lines they come from. -/
def original (old new : Keys) (e : ContentEdit) : ContentEdit :=
  { e with
    oldBytes := ⟨old.offsets.getD e.oldLines.start 0, old.offsets.getD e.oldLines.stop 0⟩
    newBytes := ⟨new.offsets.getD e.newLines.start 0, new.offsets.getD e.newLines.stop 0⟩ }

def compareKeys (base side : Bytes) (options : ContentOptions) : Except DiffError (List ContentEdit × Bool) := do
  reject (options.limits.maxInputBytes < base.length + side.length) (DiffError.limit .inputBytes)
  if base = side then return ([], false)
  else if (Options.mk options.binary true).isBinary base side then return ([], true)
  else
    let old ← keys base options.whitespace options.limits
    let new ← keys side options.whitespace options.limits
    -- each line adds its flag and a terminator
    let limits := { options.limits with
      maxInputBytes := options.limits.maxInputBytes + options.limits.maxLines * 2 }
    let outcome ← diff old.bytes new.bytes .text limits
    return ((unpack outcome).1.map (original old new), false)

def compare (base side : Bytes) (options : ContentOptions) : Except DiffError (List ContentEdit × Bool) :=
  if options.whitespace = .exact then (diff base side options.binary options.limits).map unpack
  else compareKeys base side options

def equivalent (a b : Bytes) (options : ContentOptions) : Except DiffError Bool :=
  if a = b then .ok true
  else if options.whitespace = .exact then .ok false
  else do
    let first ← keys a options.whitespace options.limits
    let second ← keys b options.whitespace options.limits
    return first.bytes = second.bytes

end Whitespace

section Hunks

/-- The common lines at the start and, of what follows, at the end. -/
def commonLines : List Bytes → List Bytes → Nat
  | a :: as, b :: bs => if a = b then a.length + commonLines as bs else 0
  | _, _ => 0

def commonBoundaries (ours theirs : Bytes) : Nat × Nat :=
  let first := commonLines (splitInclusive 10 ours) (splitInclusive 10 theirs)
  (first, commonLines (splitInclusive 10 (ours.drop first)).reverse (splitInclusive 10 (theirs.drop first)).reverse)

def union (ours theirs : Bytes) : Bytes :=
  let (first, last) := commonBoundaries ours theirs
  let head := ours.take (ours.length - last)
  let replacement := (theirs.take (theirs.length - last)).drop first
  let separator := if head ≠ [] ∧ head.getLast? ≠ some 10 ∧ replacement ≠ [] then [10] else []
  head ++ separator ++ replacement ++ ours.drop (ours.length - last)

def choose (base ours theirs : Bytes) (favor : Favor) (binary : Bool) : ContentHunk :=
  match favor with
  | .ours => .resolved ours
  | .theirs => .resolved theirs
  | .union => if binary then .conflict base ours theirs else .resolved (union ours theirs)
  | .conflict => .conflict base ours theirs

/-- Adds resolved bytes, to the last hunk if it is resolved. -/
def append (hunks : List ContentHunk) (bytes : Bytes) : List ContentHunk :=
  if bytes = [] then hunks
  else
    match hunks.getLast? with
    | some (.resolved previous) => hunks.dropLast ++ [.resolved (previous ++ bytes)]
    | _ => hunks ++ [.resolved bytes]

def addHunk (hunks : List ContentHunk) : ContentHunk → List ContentHunk
  | .resolved bytes => append hunks bytes
  | conflict => hunks ++ [conflict]

end Hunks

section Combine

def records (bytes : Bytes) : Nat := (splitInclusive 10 bytes).length

def advance (bytes : Bytes) (start records : Nat) : Nat :=
  start + ((splitInclusive 10 (bytes.drop start)).take records).flatten.length

/-- The text of a side for a region of the base, and where it ends. -/
def applyFrom (base side : Bytes) (stop : Nat) : Nat → Nat → List ContentEdit → Bytes × Nat
  | cursor, sideCursor, [] =>
    let last := advance side sideCursor (records ((Range.mk cursor stop).of base))
    ((Range.mk sideCursor last).of side, last)
  | cursor, sideCursor, e :: edits =>
    let matched := advance side sideCursor (records ((Range.mk cursor e.oldBytes.start).of base))
    let more := applyFrom base side stop e.oldBytes.stop e.newBytes.stop edits
    ((Range.mk sideCursor matched).of side ++ e.newBytes.of side ++ more.1, more.2)

/-- Edits that were taken, those that remain, and the end that was reached. -/
structure Taken where
  taken : List ContentEdit
  rest : List ContentEdit
  stop : Nat

/-- Takes the edits that begin at or before a growing end. -/
def takeTouching : List ContentEdit → Nat → Taken
  | [], stop => ⟨[], [], stop⟩
  | e :: edits, stop =>
    if e.oldBytes.start ≤ stop then
      let more := takeTouching edits (max stop e.oldBytes.stop)
      ⟨e :: more.taken, more.rest, more.stop⟩
    else ⟨[], e :: edits, stop⟩

lemma takeTouching_append (edits : List ContentEdit) (stop : Nat) :
    (takeTouching edits stop).taken ++ (takeTouching edits stop).rest = edits := by
  induction edits generalizing stop with
  | nil => rfl
  | cons e edits ih =>
    rw [takeTouching]
    split_ifs with h
    · exact congrArg (e :: ·) (ih (max stop e.oldBytes.stop))
    · rfl

/-- The edits of a region and those that remain, for both sides, and the end of the region. -/
structure Connected where
  left : List ContentEdit
  leftRest : List ContentEdit
  right : List ContentEdit
  rightRest : List ContentEdit
  stop : Nat

def connect (left right : List ContentEdit) (stop : Nat) : Connected :=
  let l := takeTouching left stop
  let r := takeTouching right l.stop
  if l.taken = [] ∧ r.taken = [] then ⟨[], l.rest, [], r.rest, r.stop⟩
  else
    let more := connect l.rest r.rest r.stop
    ⟨l.taken ++ more.left, more.leftRest, r.taken ++ more.right, more.rightRest, more.stop⟩
termination_by left.length + right.length
decreasing_by
  rename_i hsome
  have hleft := congrArg List.length (takeTouching_append left stop)
  have hright := congrArg List.length (takeTouching_append right (takeTouching left stop).stop)
  rw [List.length_append] at hleft hright
  have hpositive : 0 < l.taken.length + r.taken.length := by
    by_contra hnone
    exact hsome ⟨List.eq_nil_of_length_eq_zero (by omega), List.eq_nil_of_length_eq_zero (by omega)⟩
  simp only [l, r] at hpositive ⊢
  omega

def nextStart : List ContentEdit → List ContentEdit → Option Nat
  | [], [] => none
  | l :: _, [] => some l.oldBytes.start
  | [], r :: _ => some r.oldBytes.start
  | l :: _, r :: _ => some (min l.oldBytes.start r.oldBytes.start)

lemma connect_append (left right : List ContentEdit) (stop : Nat) :
    (connect left right stop).left ++ (connect left right stop).leftRest = left ∧
      (connect left right stop).right ++ (connect left right stop).rightRest = right := by
  fun_induction connect left right stop with
  | case1 left right stop l r hnone =>
    have hleft := takeTouching_append left stop
    have hrt := takeTouching_append right l.stop
    rw [hnone.1] at hleft
    rw [hnone.2] at hrt
    exact ⟨hleft, hrt⟩
  | case2 left right stop l r hsome more ih =>
    constructor
    · simp only [List.append_assoc]
      rw [ih.1]
      exact takeTouching_append left stop
    · simp only [List.append_assoc]
      rw [ih.2]
      exact takeTouching_append right l.stop

lemma le_takeTouching_stop (edits : List ContentEdit) (stop : Nat) :
    stop ≤ (takeTouching edits stop).stop := by
  induction edits generalizing stop with
  | nil => exact le_refl _
  | cons e edits ih =>
    rw [takeTouching]
    split_ifs with h
    · exact le_trans (le_max_left _ _) (ih _)
    · exact le_refl _

lemma connect_nonempty {left right : List ContentEdit} {start : Nat}
    (h : nextStart left right = some start) :
    (connect left right start).left ≠ [] ∨ (connect left right start).right ≠ [] := by
  have htou : (∃ e rest, left = e :: rest ∧ e.oldBytes.start ≤ start) ∨
      ∃ e rest, right = e :: rest ∧ e.oldBytes.start ≤ start := by
    cases left with
    | nil =>
      cases right with
      | nil => cases h
      | cons r rs =>
        cases h
        exact .inr ⟨r, rs, rfl, le_refl _⟩
    | cons l ls =>
      cases right with
      | nil =>
        cases h
        exact .inl ⟨l, ls, rfl, le_refl _⟩
      | cons r rs =>
        cases h
        rcases le_total l.oldBytes.start r.oldBytes.start with hle | hle
        · exact .inl ⟨l, ls, rfl, by omega⟩
        · exact .inr ⟨r, rs, rfl, by omega⟩
  rw [connect]
  split_ifs with hnone
  · exfalso
    rcases htou with ⟨e, rest, rfl, hle⟩ | ⟨e, rest, rfl, hle⟩
    · rw [takeTouching, if_pos hle] at hnone
      exact absurd hnone.1 (List.cons_ne_nil _ _)
    · rw [takeTouching, if_pos (le_trans hle (le_takeTouching_stop left start))] at hnone
      exact absurd hnone.2 (List.cons_ne_nil _ _)
  · rw [not_and_or] at hnone
    exact hnone.imp (List.append_ne_nil_of_left_ne_nil · _) (List.append_ne_nil_of_left_ne_nil · _)

def regionHunk (base ours theirs : Bytes) (left right : List ContentEdit) (options : ContentOptions) :
    Except DiffError ContentHunk :=
  if right = [] then .ok (.resolved ours)
  else if left = [] then .ok (.resolved theirs)
  else do
    let same ← equivalent ours theirs options
    return if same then .resolved ours else choose base ours theirs options.favor false

def combineFrom (base ours theirs : Bytes) (options : ContentOptions) (left right : List ContentEdit)
    (cursor oursCursor theirsCursor : Nat) (hunks : List ContentHunk) : Except DiffError (List ContentHunk) :=
  match _hstart : nextStart left right with
  | none => .ok (append hunks (ours.drop oursCursor))
  | some start => do
    let gap := records ((Range.mk cursor start).of base)
    let oursStart := advance ours oursCursor gap
    let theirsStart := advance theirs theirsCursor gap
    let region := connect left right start
    let ourText := applyFrom base ours region.stop start oursStart region.left
    let theirText := applyFrom base theirs region.stop start theirsStart region.right
    let hunk ← regionHunk ((Range.mk start region.stop).of base) ourText.1 theirText.1 region.left region.right options
    combineFrom base ours theirs options region.leftRest region.rightRest region.stop ourText.2 theirText.2
      (addHunk (append hunks ((Range.mk oursCursor oursStart).of ours)) hunk)
termination_by left.length + right.length
decreasing_by
  have happend := connect_append left right start
  have hleft := congrArg List.length happend.1
  have hright := congrArg List.length happend.2
  rw [List.length_append] at hleft hright
  rcases connect_nonempty _hstart with hsome | hsome
  all_goals
    have hpositive := List.length_pos_of_ne_nil hsome
    omega

def combine (base ours theirs : Bytes) (left right : List ContentEdit) (options : ContentOptions) :
    Except DiffError ContentMerge := do
  let hunks ← combineFrom base ours theirs options left right 0 0 0 []
  return ⟨hunks, false⟩

def contentWith (base ours theirs : Bytes) (options : ContentOptions) : Except DiffError ContentMerge := do
  let (left, leftBinary) ← compare base ours options
  let (right, rightBinary) ← compare base theirs options
  let binary := leftBinary || rightBinary
  if ours = theirs ∨ base = theirs then return ⟨[.resolved ours], binary⟩
  else if base = ours then return ⟨[.resolved theirs], binary⟩
  else if binary then return ⟨[choose base ours theirs options.favor true], binary⟩
  -- a side without edits selects the other
  else if left = [] then return ⟨[.resolved theirs], false⟩
  else if right = [] then return ⟨[.resolved ours], false⟩
  else combine base ours theirs left right options

end Combine

end Girt.Merge
