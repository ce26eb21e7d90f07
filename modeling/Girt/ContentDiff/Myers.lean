import Girt.Lib.Bytes

/-!
# Shortest line edits

Lines of a payload and the search for a shortest edit sequence between two payloads: frontiers of
furthest points are computed for growing distances until the end is reached, then traced back.
-/

namespace Girt.ContentDiff
open ByteLib

inductive Limit where
  | inputBytes
  | lines
  | trace

inductive DiffError where
  | limit (name : Limit)
  /-- The source panics: an index is out of range, or an arm that is meant to be unreachable is reached. -/
  | panic

structure DiffLimits where
  maxInputBytes : Nat
  maxLines : Nat
  maxTrace : Nat

/-- Limits that allow at least as much. -/
instance : LE DiffLimits := ⟨fun need limits => need.maxInputBytes ≤ limits.maxInputBytes ∧
  need.maxLines ≤ limits.maxLines ∧ need.maxTrace ≤ limits.maxTrace⟩

structure Range where
  start : Nat
  stop : Nat
  deriving DecidableEq

namespace Range

def length (range : Range) : Nat := range.stop - range.start

def of (range : Range) (bytes : Bytes) : Bytes := (bytes.take range.stop).drop range.start

end Range

@[ext] structure ContentEdit where
  oldLines : Range
  newLines : Range
  oldBytes : Range
  newBytes : Range
  deriving DecidableEq

section Lines

structure Lines where
  bytes : Bytes
  ends : List Nat

namespace Lines

/-- The ends of the terminated lines after an offset. -/
def scan : Nat → Bytes → List Nat
  | _, [] => []
  | offset, byte :: rest => if byte = 10 then (offset + 1) :: scan (offset + 1) rest else scan (offset + 1) rest

/-- A final fragment without a terminator is a line too. -/
def unterminated (bytes : Bytes) : List Nat :=
  match bytes.getLast? with
  | none => []
  | some last => if last = 10 then [] else [bytes.length]

def ofBytes (bytes : Bytes) : Lines := ⟨bytes, scan 0 bytes ++ unterminated bytes⟩

def new (bytes : Bytes) (remaining : Nat) : Except DiffError (Lines × Nat) := do
  let lines := ofBytes bytes
  reject (remaining < lines.ends.length) (.limit .lines)
  return (lines, remaining - lines.ends.length)

variable (lines : Lines)

def len : Nat := lines.ends.length

def offset : Nat → Nat
  | 0 => 0
  | line + 1 => lines.ends.getD line 0

def line (index : Nat) : Bytes := (Range.mk (lines.offset index) (lines.ends.getD index 0)).of lines.bytes

def range (range : Range) : Range := ⟨lines.offset range.start, lines.offset range.stop⟩

end Lines

def edit (old new : Lines) (oldLines newLines : Range) : ContentEdit :=
  ⟨oldLines, newLines, old.range oldLines, new.range newLines⟩

end Lines

section Search

/-- Whether the furthest point is reached by a deletion; equal predecessors select it. -/
def deletion (previous : List Nat) (slot : Nat) : Bool :=
  slot ≠ 0 && (slot = previous.length || previous.getD (slot - 1) 0 ≥ previous.getD slot 0)

/-- The position in the new lines of a point on the diagonal of a slot. -/
def newPosition (x distance slot : Nat) : Except DiffError Nat :=
  let opposite := distance - slot
  if slot ≤ opposite then .ok (x + (opposite - slot))
  else if slot - opposite ≤ x then .ok (x - (slot - opposite))
  else .error (.limit .lines)

variable (old new : Lines)

def snake (x y : Nat) : Nat × Nat :=
  if x < old.len ∧ y < new.len ∧ old.line x = new.line y then snake (x + 1) (y + 1) else (x, y)
termination_by old.len - x

/-- The furthest point of a slot, from the frontier of the previous distance. -/
def furthest (previous : List Nat) (distance slot : Nat) : Except DiffError (Nat × Nat) := do
  let x :=
    if distance = 0 then 0
    else if deletion previous slot then previous.getD (slot - 1) 0 + 1
    else previous.getD slot 0
  let y ← newPosition x distance slot
  return snake old new x y

/-- What a distance gives: the slot in which the end is reached, or the frontier. -/
inductive RowResult where
  | reached (slot : Nat)
  | frontier (row : List Nat)

def frontierFrom (previous : List Nat) (distance : Nat) : Nat → List Nat → Except DiffError RowResult
  | 0, row => .ok (.frontier row)
  | slots + 1, row => do
    let (x, y) ← furthest old new previous distance row.length
    if x = old.len ∧ y = new.len then return .reached row.length
    else frontierFrom previous distance slots (row ++ [x])

/-- Searches growing distances. The trace holds the frontiers so far, the latest first; the result is
the trace and the slot in which the end is reached. -/
def search : Nat → List (List Nat) → Nat → Except DiffError (List (List Nat) × Nat)
  | 0, _, _ => .error .panic
  | distances + 1, trace, traceLeft => do
    let distance := trace.length
    reject (traceLeft < distance + 1) (DiffError.limit .trace)
    match ← frontierFrom old new (trace.headD []) distance (distance + 1) [] with
    | .reached slot => return (trace, slot)
    | .frontier row => search distances (row :: trace) (traceLeft - (distance + 1))

/-- Adds an edit edge before the edits that follow it; consecutive edges form one edit. -/
def addEdge (x y endX endY : Nat) : List ContentEdit → List ContentEdit
  | [] => [edit old new ⟨x, endX⟩ ⟨y, endY⟩]
  | next :: rest =>
    if next.oldLines.start = endX ∧ next.newLines.start = endY then
      { oldLines := ⟨x, next.oldLines.stop⟩
        newLines := ⟨y, next.newLines.stop⟩
        oldBytes := ⟨old.offset x, next.oldBytes.stop⟩
        newBytes := ⟨new.offset y, next.newBytes.stop⟩ } :: rest
    else edit old new ⟨x, endX⟩ ⟨y, endY⟩ :: next :: rest

/-- Traces the edit edges back; the edits found so far follow those still to be found. -/
def backtrack : List (List Nat) → Nat → List ContentEdit → Except DiffError (List ContentEdit)
  | [], _, edits => .ok edits
  | previous :: trace, slot, edits => do
    let removed := deletion previous slot
    let previousSlot := slot - removed.toNat
    let previousX := previous.getD previousSlot 0
    let previousY ← newPosition previousX trace.length previousSlot
    backtrack trace previousSlot
      (addEdge old new previousX previousY (previousX + removed.toNat) (previousY + (! removed).toNat) edits)

def myersEdits (traceLeft : Nat) : Except DiffError (List ContentEdit) :=
  if old.len = 0 ∨ new.len = 0 then .ok [edit old new ⟨0, old.len⟩ ⟨0, new.len⟩]
  else do
    let (trace, slot) ← search old new (old.len + new.len + 1) [] traceLeft
    backtrack old new trace slot []

end Search

end Girt.ContentDiff
