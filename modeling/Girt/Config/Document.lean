import Mathlib.Data.List.Sort
import Girt.Config.Parse
import Girt.Object

/-!
# A configuration file that is edited in place

A document keeps the bytes of its file next to what the parser read in them. Every edit changes
bytes and parses the result.
-/

namespace Girt.Config
open ByteLib LineEnds

structure Document where
  bytes : Bytes
  items : List Item
  parsed : parseItems bytes = .ok items

structure Entry where
  line : Nat
  sectionBytes : Bytes
  subsection : Option Bytes
  name : Bytes
  value : Option Bytes
  deriving DecidableEq

structure Range where
  start : Nat
  stop : Nat
  deriving DecidableEq

structure EntrySpan where
  range : Range
  value : Range

structure SectionSpan where
  range : Range
  sectionBytes : Bytes
  subsection : Option Bytes

def invalid (reason : String) : ConfigError := ⟨1, reason⟩

def quoteByte (subsection : Bool) (b : UInt8) : Except ConfigError Bytes :=
  if b = 0 then .error (invalid "NUL in value")
  else if b = lf ∧ subsection then .error (invalid "newline in subsection")
  else if b = 34 ∨ b = 92 then .ok [92, b]
  else if b = lf then .ok (ascii "\\n")
  else if b = 9 ∧ !subsection then .ok (ascii "\\t")
  else if b = 8 ∧ !subsection then .ok (ascii "\\b")
  else .ok [b]

def needsQuotes (value : Bytes) : Bool :=
  value.head?.any isBlank || value.getLast?.any isBlank || value.any isCommentStart

def quote (value : Bytes) (subsection : Bool) : Except ConfigError Bytes := do
  let text ← value.mapM (quoteByte subsection)
  pure (if subsection || needsQuotes value then [34] ++ text.flatten ++ [34] else text.flatten)

def headerText (sectionBytes : Bytes) (subsection : Option Bytes) : Except ConfigError Bytes := do
  reject (sectionBytes = [] ∨ !sectionBytes.all isNameByte) (invalid "invalid section name")
  match subsection with
  | none => pure ([91] ++ sectionBytes ++ [93])
  | some subsection => do
    let quoted ← quote subsection true
    pure ([91] ++ sectionBytes ++ [32] ++ quoted ++ [93])

def validateVariableName (name : Bytes) : Except ConfigError Unit :=
  reject (!name.head?.any isAlphabetic ∨ !name.all isNameByte) (invalid "invalid variable name")

def assignmentLine (name value : Bytes) : Except ConfigError Bytes := do
  let quoted ← quote value false
  pure ([9] ++ name ++ ascii " = " ++ quoted ++ [lf])

def matchesSection (sectionBytes : Bytes) (subsection : Option Bytes) (found : Bytes)
    (foundSubsection : Option Bytes) :
    Bool :=
  found.map toLower = sectionBytes.map toLower && foundSubsection = subsection

/-- The first position at which a sorted list no longer satisfies a condition. -/
def partitionPoint {α : Type} (p : α → Bool) (l : List α) : Nat := (l.takeWhile p).length

def rposition {α : Type} (p : α → Bool) (l : List α) : Option Nat :=
  (l.reverse.findIdx? p).map (fun i => l.length - 1 - i)

/-- The removed range, or its whole line when nothing but blanks would be left of it. -/
def wholeBlankLine (bytes : Bytes) (range : Range) : Range :=
  let isBlankPart := fun part : Bytes => part.all (fun b => b = 32 || b = 9 || b = cr || b = lf)
  let lineStart := ((rposition (· = lf) (bytes.take range.start)).map (· + 1)).getD 0
  let lineEnd := (((bytes.drop range.stop).findIdx? (· = lf)).map (fun i => range.stop + i + 1)).getD bytes.length
  if isBlankPart ((bytes.take range.start).drop lineStart) && isBlankPart ((bytes.take lineEnd).drop range.stop)
  then ⟨lineStart, lineEnd⟩ else range

def splice (bytes : Bytes) (range : Range) (replacement : Bytes) : Bytes :=
  bytes.take range.start ++ replacement ++ bytes.drop range.stop

/-- Adds an edit to edits in the order of their positions. Removals that overlap become one. -/
def mergeEdit (merged : List (Range × Bytes)) (edit : Range × Bytes) : List (Range × Bytes) :=
  match merged.getLast? with
  | none => [edit]
  | some last =>
    if edit.1.start < last.1.stop ∧ edit.2 = [] ∧ last.2 = [] then
      merged.dropLast ++ [(⟨last.1.start, max last.1.stop edit.1.stop⟩, last.2)]
    else merged ++ [edit]

namespace Document

variable (document : Document)

def parse (bytes : Bytes) : Except ConfigError Document :=
  match h : parseItems bytes with
  | .error error => .error error
  | .ok items => .ok ⟨bytes, items, h⟩

def position (left : Nat) : Nat := document.bytes.length - left

def entryOf : Item → Option Entry
  | .header _ _ _ => none
  | .entry _ _ _ linesLeft name key value =>
    some ⟨1 + (newlines (textOf document.bytes) - linesLeft), name.sectionBytes, name.subsection, key, value⟩

def entries : List Entry := document.items.filterMap document.entryOf

def entrySpan : Item → Option EntrySpan
  | .header _ _ _ => none
  | .entry start valueStart stop _ _ _ _ =>
    some ⟨⟨document.position start, document.position stop⟩, ⟨document.position valueStart, document.position stop⟩⟩

def entrySpans : List EntrySpan := document.items.filterMap document.entrySpan

def sectionSpan : Item → Option SectionSpan
  | .header start stop name =>
    some ⟨⟨document.position start, document.position stop⟩, name.sectionBytes, name.subsection⟩
  | .entry _ _ _ _ _ _ _ => none

def sectionSpans : List SectionSpan := document.items.filterMap document.sectionSpan

def sectionAt (ordinal : Nat) (span : SectionSpan) : Range :=
  let nextHeader := ((document.sectionSpans[ordinal + 1]?).map (fun next => next.range.start)).getD document.bytes.length
  ⟨partitionPoint (fun entry => entry.range.start < span.range.stop) document.entrySpans,
    partitionPoint (fun entry => entry.range.start < nextHeader) document.entrySpans⟩

def apply (edits : List (Range × Bytes)) : Except ConfigError Document :=
  let edits := edits.map (fun edit => if edit.2 = [] then (wholeBlankLine document.bytes edit.1, edit.2) else edit)
  let sorted := edits.insertionSort (fun a b => a.1.start ≤ b.1.start)
  let merged := sorted.foldl mergeEdit []
  parse (merged.foldr (fun edit bytes => splice bytes edit.1 edit.2) document.bytes)

def setValue (occurrence : Nat) (value : Bytes) : Except ConfigError Document :=
  match document.entries[occurrence]?, document.entrySpans[occurrence]? with
  | some entry, some span => do
    let quoted ← quote value false
    document.apply [(span.value, (if entry.value = none then ascii " = " else []) ++ quoted)]
  | _, _ => .error (invalid "invalid occurrence index")

def appendSection (sectionBytes : Bytes) (subsection : Option Bytes)
    (entries : List (Bytes × Bytes)) : Except ConfigError Document := do
  let header ← headerText sectionBytes subsection
  let lines ← entries.mapM (fun entry => do
    validateVariableName entry.1
    assignmentLine entry.1 entry.2)
  let bytes := document.bytes
  let bytes := if bytes ≠ [] ∧ bytes.getLast? ≠ some lf then bytes ++ [lf] else bytes
  let bytes := if [92, lf] <:+ bytes ∨ [92, cr, lf] <:+ bytes then bytes ++ [lf] else bytes
  parse (bytes ++ header ++ [lf] ++ lines.flatten)

/-- The end of the last entry of a header, or of the header itself. -/
def anchor (ordinal : Nat) (span : SectionSpan) : Nat :=
  let range := document.sectionAt ordinal span
  if range.start < range.stop then
    ((document.entrySpans[range.stop - 1]?).map (fun entry => entry.range.stop)).getD span.range.stop
  else span.range.stop

def lineEnd (start : Nat) : Nat :=
  (((document.bytes.drop start).findIdx? (· = lf)).map (fun i => start + i + 1)).getD document.bytes.length

/-- Adds an entry to the last section of this name, or adds the section. -/
def append (sectionBytes : Bytes) (subsection : Option Bytes) (name value : Bytes) :
    Except ConfigError Document := do
  validateVariableName name
  match rposition (fun span => matchesSection sectionBytes subsection span.sectionBytes span.subsection)
      document.sectionSpans with
  | none => document.appendSection sectionBytes subsection [(name, value)]
  | some last =>
    match document.sectionSpans[last]? with
    | none => .error (invalid "invalid section ordinal")
    | some span => do
      let insertAt := document.lineEnd (document.anchor last span)
      let line ← assignmentLine name value
      let newline := if insertAt = document.bytes.length ∧ document.bytes.getLast? ≠ some lf then [lf] else []
      parse (splice document.bytes ⟨insertAt, insertAt⟩ (newline ++ line))

end Document

end Girt.Config
