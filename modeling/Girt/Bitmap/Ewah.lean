import Mathlib.Data.List.DropRight
import Mathlib.Data.Nat.Size
import Girt.Lib.Ewah
import Girt.Object

/-!
# Compressed bitmaps

A compressed bitmap is framed by its length in bits, the number of its words and the position of its
last marker. Parsing checks the frame without expanding runs; decoding sums the words into a buffer.
-/

namespace Girt.Bitmap
open ByteLib EwahLib

inductive Error where
  | malformed (reason : String)
  | unsupported (feature : String)
  | limit (name : String)
  | checksum
  | binding
  /-- The source panics: an index is out of range. -/
  | panic
  deriving DecidableEq

def bad (reason : String) : Error := .malformed reason

section Integers

def number (width : Nat) (bytes : Bytes) (start : Nat) : Except Error Nat :=
  if start + width ≤ bytes.length then .ok (beNat ((bytes.drop start).take width)) else .error (bad "integer range")

def short (bytes : Bytes) (start : Nat) : Except Error Nat := number 2 bytes start

def word (bytes : Bytes) (start : Nat) : Except Error Nat := number 4 bytes start

def long (bytes : Bytes) (start : Nat) : Except Error UInt64 := UInt64.ofNat <$> number 8 bytes start

end Integers

def wordCount (bits : Nat) : Nat := (bits + 63) / 64

/-- The bits of the last word that some bits use. -/
def tailMask (bits : Nat) : UInt64 := if bits % 64 = 0 then ones else (1 <<< UInt64.ofNat (bits % 64)) - 1

def charge (budget words : Nat) : Except Error Nat :=
  if words ≤ budget then .ok (budget - words) else .error (.limit "decoded words")

section Parse

/-- Where the words of a compressed bitmap are. -/
structure Ewah where
  start : Nat
  words : Nat
  deriving DecidableEq

structure Framing where
  position : Nat
  expanded : Nat
  lastMarker : Nat
  lastWord : UInt64

/-- The last word that a marker stands for, if it stands for any. -/
def lastWordOf (bytes : Bytes) (start next : Nat) (header previous : UInt64) : Except Error UInt64 :=
  if literalsOf header ≠ 0 then long bytes (start + (next - 1) * 8)
  else if runOf header ≠ 0 then .ok (fill (bitOf header))
  else .ok previous

def readMarkers (bytes : Bytes) (start words limit : Nat) (framing : Framing) : Except Error Framing :=
  if framing.position < words then do
    let header ← long bytes (start + framing.position * 8)
    let expanded := framing.expanded + runOf header + literalsOf header
    reject (limit < expanded) (bad "EWAH expansion")
    let next := framing.position + 1 + literalsOf header
    reject (words < next) (bad "EWAH literal range")
    let lastWord ← lastWordOf bytes start next header framing.lastWord
    readMarkers bytes start words limit ⟨next, expanded, framing.position, lastWord⟩
  else .ok framing
termination_by words - framing.position

/-- Parses a compressed bitmap over some objects at a cursor; the result has the cursor behind it. -/
def Ewah.parse (bytes : Bytes) (cursor stop objects : Nat) : Except Error (Ewah × Nat) := do
  let bits ← word bytes cursor
  let words ← word bytes (cursor + 4)
  reject (wordCount objects < wordCount bits) (bad "EWAH bit length")
  let start := cursor + 8
  let dataEnd := start + words * 8
  let next := dataEnd + 4
  reject (words = 0 ∨ stop < next) (bad "EWAH range")
  let current ← word bytes dataEnd
  let framing ← readMarkers bytes start words (wordCount bits) ⟨0, 0, 0, 0⟩
  reject (framing.expanded ≠ wordCount bits ∨ current ≠ framing.lastMarker) (bad "EWAH length or current run")
  reject (framing.expanded ≠ 0 ∧ framing.lastWord &&& ~~~tailMask bits ≠ 0) (bad "EWAH trailing bits")
  reject (framing.expanded ≠ 0 ∧ framing.expanded = wordCount objects ∧ framing.lastWord &&& ~~~tailMask objects ≠ 0)
    (bad "bitmap outside object universe")
  return (⟨start, words⟩, next)

end Parse

section Decode

def invertRange (output : List UInt64) (start stop : Nat) : Except Error (List UInt64) :=
  if stop ≤ output.length then
    .ok (output.take start ++ ((output.take stop).drop start).map (· ^^^ ones) ++ output.drop stop)
  else .error (bad "decoded run range")

def xorRun (header : UInt64) (output : List UInt64) (start stop : Nat) : Except Error (List UInt64) :=
  if bitOf header then invertRange output start stop else .ok output

def xorLiterals (bytes : Bytes) (start : Nat) : Nat → Nat → Nat → List UInt64 → Except Error (List UInt64)
  | 0, _, _, output => .ok output
  | literals + 1, position, out, output => do
    let value ← long bytes (start + position * 8)
    reject (output.length ≤ out) (bad "decoded literal range")
    xorLiterals bytes start literals (position + 1) (out + 1) (output.modify out (· ^^^ value))

/-- Sums the words of a compressed bitmap from a marker on into the output; the result has the budget left. -/
def Ewah.xorFrom (ewah : Ewah) (bytes : Bytes) (position out : Nat) (output : List UInt64) (budget : Nat) :
    Except Error (List UInt64 × Nat) :=
  if position < ewah.words then do
    let header ← long bytes (ewah.start + position * 8)
    let budget ← charge budget (runOf header + literalsOf header)
    let runEnd := out + runOf header
    let output ← xorRun header output out runEnd
    let output ← xorLiterals bytes ewah.start (literalsOf header) (position + 1) runEnd output
    ewah.xorFrom bytes (position + 1 + literalsOf header) (runEnd + literalsOf header) output budget
  else .ok (output, budget)
termination_by ewah.words - position

def Ewah.xorInto (ewah : Ewah) (bytes : Bytes) (output : List UInt64) (budget : Nat) :
    Except Error (List UInt64 × Nat) := ewah.xorFrom bytes 0 0 output budget

end Decode

section Write

inductive WriteError where
  | limit (name : String)
  deriving DecidableEq

structure Output where
  data : Bytes
  limit : Nat
  deriving DecidableEq

namespace Output

def bytes (output : Output) (more : Bytes) : Except WriteError Output :=
  if output.data.length + more.length ≤ output.limit then .ok { output with data := output.data ++ more }
  else .error (.limit "artifact bytes")

def word (output : Output) (value : Nat) : Except WriteError Output := output.bytes (beBytes 4 value)

def long (output : Output) (value : UInt64) : Except WriteError Output := output.bytes (beBytes 8 value.toNat)

end Output

/-- The bits up to the last one that is set. -/
def bitLength (words : List UInt64) : Nat :=
  match words.getLast? with
  | none => 0
  | some last => (words.length - 1) * 64 + last.toNat.size

def isLiteral (word : UInt64) : Bool := word ≠ 0 && word ≠ ones

/-- The word that the run before the next literals repeats. -/
def isOnes (words : List UInt64) : Bool := words.head? = some ones

/-- What has been written: the number of words and the position of the last marker. -/
structure Progress where
  output : Output
  compressed : Nat
  last : Nat

lemma rest_lt {words : List UInt64} (hne : words ≠ []) :
    ((words.dropWhile (· = fill (isOnes words))).dropWhile isLiteral).length < words.length := by
  obtain ⟨first, words, rfl⟩ := List.exists_cons_of_ne_nil hne
  have hlen : ∀ (p : UInt64 → Bool) (l : List UInt64), (l.dropWhile p).length ≤ l.length :=
    fun p l => (List.dropWhile_suffix _).length_le
  rw [List.length_cons]
  by_cases hfill : first = fill (isOnes (first :: words))
  · rw [List.dropWhile_cons_of_pos (by simpa using hfill)]
    exact Nat.lt_succ_of_le ((hlen _ _).trans (hlen _ _))
  · -- a word that begins no run is a literal
    rw [List.dropWhile_cons_of_neg (by simpa using hfill)]
    have hlit : isLiteral first := by
      by_cases hones : first = ones
      · simp [isOnes, fill, hones] at hfill
      · simp [isOnes, fill, hones] at hfill
        simp [isLiteral, hfill, hones]
    rw [List.dropWhile_cons_of_pos hlit]
    exact Nat.lt_succ_of_le (hlen _ _)

/-- Writes runs and literals until no word is left. -/
def writeRuns (words : List UInt64) (progress : Progress) : Except WriteError Progress :=
  if _h : words = [] then .ok progress
  else do
    let bit := isOnes words
    let rest := words.dropWhile (· = fill bit)
    let run := words.length - rest.length
    let literals := rest.takeWhile isLiteral
    reject (0x7fffffff < literals.length) (WriteError.limit "EWAH literals")
    let output ← progress.output.long (marker bit run literals.length)
    let compressed := progress.compressed + (1 + literals.length)
    reject (2 ^ 32 ≤ compressed) (WriteError.limit "EWAH words")
    let output ← literals.foldlM Output.long output
    writeRuns (rest.dropWhile isLiteral) ⟨output, compressed, progress.compressed⟩
termination_by words.length
decreasing_by exact rest_lt _h

/-- Without words there is still a marker. -/
def writeWords (words : List UInt64) (output : Output) : Except WriteError Progress :=
  if words = [] then do
    let output ← output.long 0
    return ⟨output, 1, 0⟩
  else writeRuns words ⟨output, 0, 0⟩

def Output.setCount (output : Output) (offset count : Nat) : Output :=
  { output with data := output.data.take offset ++ beBytes 4 count ++ output.data.drop (offset + 4) }

def ewah (output : Output) (input : List UInt64) : Except WriteError Output := do
  let words := input.rdropWhile (· = 0)
  let bits := bitLength words
  reject (2 ^ 32 ≤ bits) (WriteError.limit "EWAH bits")
  let output ← output.word bits
  let countOffset := output.data.length
  let output ← output.word 0
  let progress ← writeWords words output
  (progress.output.setCount countOffset progress.compressed).word progress.last

end Write

end Girt.Bitmap
