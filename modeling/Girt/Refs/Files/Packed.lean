import Girt.Lib.Lines
import Girt.Lib.OrderedMap
import Girt.Refs.Edit

/-!
# The packed-refs file

A text file with one record for each packed reference, an optional header that names traits of
the file, and an optional peeled identity on the line after a record.
-/

namespace Girt.Refs.Files
open ByteLib Pieces

variable (format : ObjectFormat)

def newline : UInt8 := 10

def space : UInt8 := 32

def hexDigit (byte : UInt8) : Option UInt8 :=
  if 48 ≤ byte ∧ byte ≤ 57 then some (byte - 48)
  else if 97 ≤ byte ∧ byte ≤ 102 then some (byte - 97 + 10)
  else if 65 ≤ byte ∧ byte ≤ 70 then some (byte - 65 + 10)
  else none

def hexBytes : Bytes → Option Bytes
  | high :: low :: rest => do
    let h ← hexDigit high
    let l ← hexDigit low
    let tail ← hexBytes rest
    some ((h <<< 4 ||| l) :: tail)
  | _ => some []

def lowerHex (nibble : UInt8) : UInt8 := if nibble < 10 then 48 + nibble else 87 + nibble

def idText (id : ObjectId) : Bytes := id.bytes.flatMap (fun b : UInt8 => [lowerHex (b >>> 4), lowerHex (b &&& 15)])

def parseId (bytes : Bytes) (path : Path) : Except ReferenceError ObjectId := do
  reject (bytes.length ≠ format.digestLen * 2) (.malformed path "expected repository-format reference target")
  match hexBytes bytes >>= ObjectId.fromBytes format with
  | none => .error (.malformed path "invalid repository-format reference target")
  | some id =>
    reject id.isNull (.malformed path "zero reference target")
    pure id

structure PackedRecord where
  target : ObjectId
  peeledHint : Option ObjectId
  deriving DecidableEq

abbrev Packed := OrdMap Bytes PackedRecord

/-- What the lines read so far say about the next one. -/
structure PackedScan where
  entries : Packed
  previous : Option RefName
  canPeel : Bool
  sorted : Bool

def headerStart : Bytes := ascii "# pack-refs with:"

/-- The traits a header may name, in the order they are looked at. -/
def readTrait (sorted : Bool) (name : Bytes) : Except ReferenceError Bool :=
  if name = ascii "peeled" ∨ name = ascii "fully-peeled" then .ok sorted
  else if name = ascii "sorted" then .ok true
  else .error (.unsupported "packed-refs header trait")

def readHeader (path : Path) (scan : PackedScan) (index : Nat) (line : Bytes) :
    Except ReferenceError PackedScan := do
  reject (index ≠ 0) (.malformed path "misplaced packed header")
  let traits := ((line.drop headerStart.length).splitOn space).filter (fun name => name ≠ [])
  let sorted ← traits.foldlM readTrait scan.sorted
  pure { scan with sorted }

def orphanPeel (path : Path) : ReferenceError := .malformed path "orphan or repeated peeled record"

def readPeel (path : Path) (scan : PackedScan) (line : Bytes) :
    Except ReferenceError PackedScan := do
  reject (scan.canPeel = false) (orphanPeel path)
  let peeled ← parseId format (line.drop 1) path
  match scan.previous.bind (fun name => (scan.entries.get name.bytes).map (fun entry => (name, entry))) with
  | none => .error (orphanPeel path)
  | some (name, entry) =>
    .ok { scan with
      entries := scan.entries.insert name.bytes { entry with peeledHint := some peeled }
      canPeel := false }

def recordFields (width : Nat) (line : Bytes) : Option (Bytes × Bytes) :=
  if line.length < width then none
  else
    match line.drop width with
    | 32 :: name => if name = [] then none else some (line.take width, name)
    | _ => none

def readRecord (path : Path) (scan : PackedScan) (line : Bytes) :
    Except ReferenceError PackedScan :=
  match recordFields (format.digestLen * 2) line with
  | none => .error (.malformed path "expected object ID and reference name")
  | some (idField, nameField) => do
    let id ← parseId format idField path
    match RefName.new nameField with
    | none => .error (.malformed path "invalid packed reference name")
    | some name =>
      reject (name = RefName.head ∨ name.perWorktree = true) (.unsupported "packed per-worktree reference")
      reject (scan.sorted = true ∧ scan.previous.any (fun last => name.bytes ≤ last.bytes))
        (.malformed path "packed sorted order violated")
      reject (scan.entries.contains name.bytes) (.malformed path "duplicate packed reference")
      pure ⟨scan.entries.insert name.bytes ⟨id, none⟩, some name, true, scan.sorted⟩

def readPackedLine (path : Path) (scan : PackedScan) (line : Bytes × Nat) :
    Except ReferenceError PackedScan :=
  if headerStart.isPrefixOf line.1 then readHeader path scan line.2 line.1
  else if (ascii "^").isPrefixOf line.1 then readPeel format path scan line.1
  else readRecord format path scan line.1

def parsePacked (bytes : Bytes) (path : Path) : Except ReferenceError Packed :=
  if bytes = [] then .ok .empty
  else if bytes.getLast? ≠ some newline then .error (.malformed path "unterminated packed record")
  else do
    let scan ← (bytes.dropLast.splitOn newline).zipIdx.foldlM (readPackedLine format path) ⟨.empty, none, false, false⟩
    pure scan.entries

def isRecordOf (width : Nat) (name : Bytes) (line : Bytes) : Bool :=
  (line)[width]? = some space && width + 1 ≤ line.length - 1 &&
    (line.take (line.length - 1)).drop (width + 1) = name

/-- The lines other than the record of `name` and the peeled identity that follows it. -/
def withoutLines (width : Nat) (name : Bytes) (removed : Bool) : List Bytes → List Bytes
  | [] => []
  | line :: rest =>
    if (ascii "^").isPrefixOf line && removed then withoutLines width name removed rest
    else if isRecordOf width name line then withoutLines width name true rest
    else line :: withoutLines width name false rest

def withoutRef (bytes : Bytes) (name : RefName) : Bytes :=
  (withoutLines (format.digestLen * 2) name.bytes false (splitInclusive newline bytes)).flatten

end Girt.Refs.Files
