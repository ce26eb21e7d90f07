import Mathlib.Data.List.Sort
import Girt.Bitmap.Ewah
import Girt.Lib.Bisect

/-!
# Bitmap indexes

A bitmap index holds one bitmap for each object kind and one for each selected commit. A commit's bitmap may
be stored as its sum with the bitmap of an earlier entry, so it is decoded along a chain of entries.
-/

set_option linter.dupNamespace false

namespace Girt.Bitmap
open ByteLib EwahLib BisectLib

structure Limits where
  maxBytes : Nat
  maxObjects : Nat
  maxEntries : Nat
  maxDecodedWords : Nat

/-- A set of positions among some objects. -/
structure Bitmap where
  words : List UInt64
  objects : Nat
  deriving DecidableEq

def Bitmap.contains (bitmap : Bitmap) (position : Nat) : Bool :=
  position < bitmap.objects &&
    bitmap.words[position / 64]?.any fun word => word &&& (1 <<< UInt64.ofNat (position % 64)) ≠ 0

structure Entry where
  position : Nat
  xor : Nat
  offset : Nat
  bitmap : Ewah
  deriving DecidableEq

structure BitmapIndex where
  bytes : Bytes
  anchor : ObjectId
  objects : Nat
  types : List Bitmap
  entries : List Entry
  sorted : List Nat
  hashes : Option Nat

def bounds (bytes : Bytes) (objects : Nat) (limits : Limits) : Except Error Unit := do
  reject (limits.maxBytes < bytes.length) (.limit "bytes")
  reject (limits.maxObjects < objects ∨ 2 ^ 32 - 1 < objects) (.limit "objects")

def zeroWords (objects budget : Nat) : Except Error (List UInt64 × Nat) := do
  let budget ← charge budget (wordCount objects)
  return (List.replicate (wordCount objects) 0, budget)

section Types

/-- Decodes type bitmaps one after the other; the results are the bitmaps and the cursor behind them. -/
def parseTypes (bytes : Bytes) (entriesEnd objects : Nat) : Nat → Nat → Nat → Except Error (List Bitmap × Nat)
  | 0, cursor, _ => .ok ([], cursor)
  | more + 1, cursor, budget => do
    let encoded ← Ewah.parse bytes cursor entriesEnd objects
    let zeros ← zeroWords objects budget
    let output ← encoded.1.xorInto bytes zeros.1 zeros.2
    let rest ← parseTypes bytes entriesEnd objects more encoded.2 output.2
    return (⟨output.1, objects⟩ :: rest.1, rest.2)

def element {α : Type} (list : List α) (index : Nat) : Except Error α :=
  match list[index]? with
  | none => .error .panic
  | some value => .ok value

/-- Adds the word of one more type to the words seen. -/
def joinType (index : Nat) (union : UInt64) (bitmap : Bitmap) : Except Error UInt64 := do
  let word ← element bitmap.words index
  reject (union &&& word ≠ 0) (bad "overlapping type bitmaps")
  return union ||| word

/-- The word in which every object is set. -/
def expectedWord (objects index : Nat) : UInt64 := if index + 1 = wordCount objects then tailMask objects else ones

def validateTypeWord (types : List Bitmap) (objects index : Nat) : Except Error Unit := do
  let union ← types.foldlM (joinType index) 0
  reject (union ≠ expectedWord objects index) (bad "incomplete type bitmaps")

def validateTypes (types : List Bitmap) (objects : Nat) : Except Error Unit :=
  (List.range (wordCount objects)).forM (validateTypeWord types objects)

end Types

section Entries

def headerByte (bytes : Bytes) (start : Nat) : Except Error UInt8 :=
  match bytes[start]? with
  | none => .error (bad "entry header")
  | some byte => .ok byte

/-- Parses the entry that has an index among the entries; the result has the cursor behind it. -/
def parseEntry (bytes : Bytes) (entriesEnd objects index cursor : Nat) : Except Error (Entry × Nat) := do
  let position ← word bytes cursor
  let xor ← headerByte bytes (cursor + 4)
  let flags ← headerByte bytes (cursor + 5)
  reject (objects ≤ position ∨ index < xor.toNat ∨ 160 < xor.toNat) (bad "entry position or XOR reference")
  reject (flags &&& ~~~1 ≠ 0) (.unsupported "entry flags")
  let bitmap ← Ewah.parse bytes (cursor + 6) entriesEnd objects
  return (⟨position, xor.toNat, cursor, bitmap.1⟩, bitmap.2)

def parseEntries (bytes : Bytes) (entriesEnd objects : Nat) : Nat → Nat → Nat → Except Error (List Entry × Nat)
  | 0, _, cursor => .ok ([], cursor)
  | more + 1, index, cursor => do
    let entry ← parseEntry bytes entriesEnd objects index cursor
    let rest ← parseEntries bytes entriesEnd objects more (index + 1) entry.2
    return (entry.1 :: rest.1, rest.2)

def positionAt (entries : List Entry) (index : Nat) : Nat := (entries[index]?.map Entry.position).getD 0

/-- The indexes of the entries by the positions of their commits. -/
def sortEntries (entries : List Entry) : List Nat :=
  (List.range entries.length).insertionSort fun a b => positionAt entries a ≤ positionAt entries b

def validateRow (bytes : Bytes) (start : Nat) (entries : List Entry) (sorted : List Nat) (row : Nat × Nat) :
    Except Error Unit := do
  let place := start + row.2 * 16
  let entry ← element entries row.1
  let position ← word bytes place
  reject (position ≠ entry.position) (bad "lookup entry")
  let offset ← long bytes (place + 4)
  reject (offset ≠ UInt64.ofNat entry.offset) (bad "lookup entry")
  let parent ← word bytes (place + 12)
  if entry.xor = 0 then reject (parent ≠ 2 ^ 32 - 1) (bad "lookup XOR reference")
  else reject (sorted[parent]? ≠ some (row.1 - entry.xor)) (bad "lookup XOR reference")

def validateLookup (bytes : Bytes) (start : Nat) (entries : List Entry) (sorted : List Nat) : Except Error Unit :=
  sorted.zipIdx.forM (validateRow bytes start entries sorted)

def checkLookup (flags : Nat) (bytes : Bytes) (start : Nat) (entries : List Entry) (sorted : List Nat) :
    Except Error Unit :=
  if flags &&& 16 ≠ 0 then validateLookup bytes start entries sorted else .ok ()

end Entries

namespace BitmapIndex

def parseWith (digests : Digests) (bytes : Bytes) (expected : ObjectId) (objects : Nat) (limits : Limits) :
    Except Error BitmapIndex := do
  bounds bytes objects limits
  let width := expected.format.digestLen
  reject (bytes.length < 12 + 2 * width ∨ bytes.take 4 ≠ ascii "BITM") (bad "bitmap header")
  let version ← short bytes 4
  reject (version ≠ 1) (.unsupported "bitmap version")
  let flags ← short bytes 6
  reject (flags &&& 1 = 0) (bad "full DAG flag")
  reject (flags &&& (0xffff ^^^ 0x15) ≠ 0) (.unsupported "bitmap flags")
  let stop := bytes.length - width
  reject ((digests.digest expected.format (bytes.take stop)).bytes ≠ bytes.drop stop) .checksum
  reject ((bytes.drop 12).take width ≠ expected.bytes) .binding
  let count ← word bytes 8
  reject (limits.maxEntries < count) (.limit "entries")
  let cacheBytes := if flags &&& 4 ≠ 0 then objects * 4 else 0
  let tableBytes := if flags &&& 16 ≠ 0 then count * 16 else 0
  reject (stop < cacheBytes) (bad "hash cache range")
  let cacheStart := stop - cacheBytes
  reject (cacheStart < tableBytes) (bad "lookup table range")
  let entriesEnd := cacheStart - tableBytes
  let cursor := 12 + width
  reject (entriesEnd < cursor ∨ (entriesEnd - cursor) / 6 < count) (bad "entry count")
  let types ← parseTypes bytes entriesEnd objects 4 cursor limits.maxDecodedWords
  validateTypes types.1 objects
  let entries ← parseEntries bytes entriesEnd objects count 0 types.2
  reject (entries.2 ≠ entriesEnd) (bad "trailing entry data")
  let sorted := sortEntries entries.1
  reject (∃ pair ∈ sorted.zip sorted.tail, positionAt entries.1 pair.1 = positionAt entries.1 pair.2)
    (bad "duplicate commit position")
  checkLookup flags bytes entriesEnd entries.1 sorted
  return ⟨bytes, expected, objects, types.1, entries.1, sorted, if flags &&& 4 ≠ 0 then some cacheStart else none⟩

def kindIndex : ObjectKind → Nat
  | .commit => 0
  | .tree => 1
  | .blob => 2
  | .tag => 3

def typeBitmap (index : BitmapIndex) (kind : ObjectKind) : Except Error Bitmap :=
  element index.types (kindIndex kind)

def decodeFrom (index : BitmapIndex) (place : Nat) (output : List UInt64) (budget : Nat) :
    Except Error (List UInt64) := do
  let entry ← element index.entries place
  let decoded ← entry.bitmap.xorInto index.bytes output budget
  if _h : entry.xor = 0 then return decoded.1
  else if _h' : place < entry.xor then .error .panic
  else decodeFrom index (place - entry.xor) decoded.1 decoded.2
termination_by place

/-- How the commit with a rank compares with a position. -/
def comparePosition (index : BitmapIndex) (position rank : Nat) : Except Error Ordering := do
  let place ← element index.sorted rank
  let entry ← element index.entries place
  return keyOrder entry.position position

def reachableWith (index : BitmapIndex) (position : Nat) (limits : Limits) : Except Error (Option Bitmap) := do
  bounds index.bytes index.objects limits
  reject (limits.maxEntries < index.entries.length) (.limit "entries")
  let rank ← search (index.comparePosition position) 0 index.sorted.length
  match rank with
  | none => return none
  | some rank => do
    let place ← element index.sorted rank
    let zeros ← zeroWords index.objects limits.maxDecodedWords
    let words ← index.decodeFrom place zeros.1 zeros.2
    return some ⟨words, index.objects⟩

end BitmapIndex

end Girt.Bitmap
