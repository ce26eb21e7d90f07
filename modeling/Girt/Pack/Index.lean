import Mathlib.Data.List.Sort
import Mathlib.Data.Nat.Size
import Girt.Lib.Bisect
import Girt.Lib.Radix
import Girt.Objects.Prefix

/-!
# Pack indexes

An index lists the identities of a pack in order, after a table that says how many identities start with
each byte or a smaller one, and the offset of every entry. It is read in place: parsing checks what lookups
rely on, and validating checks the whole structure.
-/

namespace Girt.Pack
open ByteLib BisectLib

inductive Error where
  | corrupt (reason : String)
  | indexVersion (version : Nat)
  | limit (name : String)
  /-- The source panics: an index is out of range. -/
  | panic
  deriving DecidableEq

structure Entry where
  id : ObjectId
  offset : Nat
  stop : Nat
  crc : Option Nat

structure Index where
  format : ObjectFormat
  legacy : Bool
  count : Nat
  large : Nat
  stray : Bool
  packEnd : Nat
  packHash : ObjectId

/-- Positions sorted by offset, and the rank of each position in that order. -/
structure Order where
  order : List Nat
  rank : List Nat
  deriving DecidableEq

def word (bytes : Bytes) (position : Nat) : Except Error Nat :=
  if position + 4 ≤ bytes.length then .ok (beNat ((bytes.drop position).take 4)) else .error (.corrupt "truncated integer")

def checkedOffset (offset packEnd : Nat) : Except Error Nat := do
  reject (offset < 12 ∨ packEnd ≤ offset) (.corrupt "offset outside pack entries")
  return offset

def slice (bytes : Bytes) (start width : Nat) : Option Bytes :=
  if start + width ≤ bytes.length then some ((bytes.drop start).take width) else none

section Parse

def magic : Bytes := [0xff, 0x74, 0x4f, 0x63]

def tableStart (legacy : Bool) (bytes : Bytes) : Except Error Nat :=
  if legacy then .ok 0
  else do
    let version ← word bytes 4
    reject (version ≠ 2) (.indexVersion version)
    return 8

def checkBucket (bytes : Bytes) (fanout previous bucket : Nat) : Except Error Nat := do
  let cumulative ← word bytes (fanout + bucket * 4)
  reject (cumulative < previous) (.corrupt "index fanout")
  return cumulative

def trailerHash (format : ObjectFormat) (bytes : Bytes) (trailer : Nat) : Except Error ObjectId :=
  match slice bytes trailer format.digestLen >>= ObjectId.fromBytes format with
  | none => .error (.corrupt "truncated index")
  | some hash => .ok hash

/-- Checks the header, table sizes and fan-out of an index for a pack whose entries end at `packEnd`. -/
def Index.parse (format : ObjectFormat) (bytes : Bytes) (packEnd : Nat) : Except Error Index := do
  reject (bytes.length < 8) (.corrupt "truncated index header")
  let width := format.digestLen
  let legacy := !magic.isPrefixOf bytes
  let fanout ← tableStart legacy bytes
  let count ← word bytes (fanout + 1020)
  reject (bytes.length < 2 * width) (.corrupt "truncated index")
  let trailer := bytes.length - 2 * width
  let record := if legacy then width + 4 else width + 8
  let tableEnd := count * record + (fanout + 1024)
  reject (trailer < tableEnd) (.corrupt "index table length")
  let largeBytes := trailer - tableEnd
  reject ((count - 1) * 8 < largeBytes ∨ legacy ∧ largeBytes ≠ 0) (.corrupt "index table length")
  let _ ← (List.range 256).foldlM (checkBucket bytes fanout) 0
  let packHash ← trailerHash format bytes trailer
  return ⟨format, legacy, count, largeBytes / 8, largeBytes % 8 ≠ 0, packEnd, packHash⟩

end Parse

namespace Index

variable (index : Index) (bytes : Bytes)

def fanoutStart : Nat := if index.legacy then 0 else 8

def nameStart (position : Nat) : Nat :=
  if index.legacy then 1028 + position * (index.format.digestLen + 4) else 1032 + position * index.format.digestLen

def nameAt (position : Nat) : Except Error Bytes :=
  match slice bytes (index.nameStart position) index.format.digestLen with
  | none => .error .panic
  | some name => .ok name

def identity (position : Nat) : Except Error ObjectId := do
  let name ← index.nameAt bytes position
  match ObjectId.fromBytes index.format name with
  | none => .error .panic
  | some id => .ok id

section Find

def firstByte (name : Bytes) : Nat := (name.headD 0).toNat

def bucketStart (first : Nat) : Except Error Nat :=
  if first = 0 then .ok 0 else word bytes (index.fanoutStart + (first - 1) * 4)

def bucketEnd (first : Nat) : Except Error Nat := word bytes (index.fanoutStart + first * 4)

def compareName (target : Bytes) (position : Nat) : Except Error Ordering := do
  let name ← index.nameAt bytes position
  return keyOrder name target

def find (id : ObjectId) : Except Error (Option Nat) := do
  let low ← index.bucketStart bytes (firstByte id.bytes)
  let high ← index.bucketEnd bytes (firstByte id.bytes)
  search (index.compareName bytes id.bytes) low high

def isBelow (pre : ObjectIdPrefix) (position : Nat) : Except Error Bool := do
  let id ← index.identity bytes position
  return id < pre.lower

def isMatch (pre : ObjectIdPrefix) (position : Nat) : Except Error Bool := do
  let id ← index.identity bytes position
  return pre.matchesId id

def prefixRange (pre : ObjectIdPrefix) : Except Error (Nat × Nat) := do
  let low ← index.bucketStart bytes (firstByte pre.lower.bytes)
  let high ← index.bucketEnd bytes (firstByte pre.lower.bytes)
  let start ← partitionPoint (index.isBelow bytes pre) low high
  let stop ← partitionPoint (index.isMatch bytes pre) start high
  return (start, stop)

end Find

section Offset

def offsetTable : Nat := 1032 + index.count * (index.format.digestLen + 4)

def largeOffset (slot : Nat) : Except Error Nat :=
  match slice bytes (index.offsetTable + index.count * 4 + slot * 8) 8 with
  | none => .error (.corrupt "large offset index")
  | some large => checkedOffset (beNat large) index.packEnd

def offset (position : Nat) : Except Error Nat :=
  if index.legacy then do
    let offset ← word bytes (1024 + position * (index.format.digestLen + 4))
    checkedOffset offset index.packEnd
  else do
    let raw ← word bytes (index.offsetTable + position * 4)
    if raw &&& 0x80000000 = 0 then checkedOffset raw index.packEnd
    else do
      reject (index.large ≤ raw &&& 0x7fffffff) (.corrupt "large offset index")
      index.largeOffset bytes (raw &&& 0x7fffffff)

def crc (position : Nat) : Except Error (Option Nat) :=
  if index.legacy then .ok none
  else some <$> word bytes (1032 + index.count * index.format.digestLen + position * 4)

end Offset

end Index

section OffsetOrder

/-- Sorts positions by offset with keys that hold the offset above the position. Keys that need more than 64
bits are compared instead. -/
def offsetOrder (offsets : List Nat) : List Nat × List Nat :=
  let shift := offsets.length.size
  let offsetBits := (offsets.foldl max 0).size
  if 64 < offsetBits + shift then
    let order := (List.range offsets.length).insertionSort fun a b => offsets.getD a 0 ≤ offsets.getD b 0
    (order, order.map fun position => offsets.getD position 0)
  else
    let keys := offsets.mapIdx fun position offset => offset <<< shift ||| position
    let passes := max ((offsetBits + 15) / 16) 1
    let digitBits := (offsetBits + passes - 1) / passes
    let digit pass key := (key >>> (shift + pass * digitBits)) &&& (1 <<< digitBits - 1)
    let sorted := (RadixLib.passes digit (1 <<< digitBits) passes keys (List.replicate keys.length 0)).1
    (sorted.map (· &&& (1 <<< shift - 1)), sorted.map (· >>> shift))

end OffsetOrder

namespace Index

variable (index : Index) (bytes : Bytes)

section Order

/-- The large offset slots in use and the offsets read so far. -/
structure Scan where
  used : List Bool
  offsets : List Nat

def reasonOf : Error → String
  | .corrupt reason => reason
  | _ => "index table length"

def useSlot (used : List Bool) (slot : Nat) : Except String (List Bool) :=
  match used[slot]? with
  | none => .error "large offset index"
  | some true => .error "duplicate large offset index"
  | some false => .ok (used.set slot true)

/-- Marks the large offset slot of a position, if it has one. -/
def markSlot (used : List Bool) (position : Nat) : Except String (List Bool) :=
  if index.legacy then .ok used
  else do
    let raw ← wrapError reasonOf (word bytes (index.offsetTable + position * 4))
    if raw &&& 0x80000000 = 0 then .ok used else useSlot used (raw &&& 0x7fffffff)

def scanOffset (scan : Scan) (position : Nat) : Except String Scan := do
  let used ← index.markSlot bytes scan.used position
  let offset ← wrapError reasonOf (index.offset bytes position)
  return ⟨used, scan.offsets ++ [offset]⟩

def ranks (order : List Nat) : List Nat :=
  order.zipIdx.foldl (fun rank entry => rank.set entry.1 entry.2) (List.replicate order.length 0)

/-- Checks every offset, that each large slot is used once, and that the offsets are distinct and start right
behind the header of the pack. -/
def buildOrder : Except String Order := do
  let scan ← (List.range index.count).foldlM (index.scanOffset bytes) ⟨List.replicate index.large false, []⟩
  reject (false ∈ scan.used) "unused large offset"
  let sorted := offsetOrder scan.offsets
  reject (∃ pair ∈ sorted.2.zip sorted.2.tail, pair.1 = pair.2) "duplicate pack offset"
  reject (sorted.2.headD index.packEnd ≠ 12) "unindexed pack bytes"
  return ⟨sorted.1, ranks sorted.1⟩

def order : Except Error Order := wrapError .corrupt (index.buildOrder bytes)

def stop (order : Order) (position : Nat) : Except Error Nat :=
  match order.rank[position]? with
  | none => .error (.corrupt "index position")
  | some rank =>
    match order.order[rank + 1]? with
    | some next => index.offset bytes next
    | none => .ok index.packEnd

def entry (position : Nat) : Except Error Entry := do
  let order ← index.order bytes
  let id ← index.identity bytes position
  let offset ← index.offset bytes position
  let stop ← index.stop bytes order position
  let crc ← index.crc bytes position
  return ⟨id, offset, stop, crc⟩

def compareOffset (order : Order) (offset rank : Nat) : Except Error Ordering :=
  match order.order[rank]? with
  | none => .error .panic
  | some position => do
    let found ← index.offset bytes position
    return keyOrder found offset

def atOffset (offset : Nat) : Except Error Nat := do
  let order ← index.order bytes
  let rank ← search (index.compareOffset bytes order offset) 0 order.order.length
  match rank.bind (order.order[·]?) with
  | none => .error (.corrupt "base offset is not an indexed entry")
  | some position => .ok position

end Order

section Validate

/-- The last identity seen and how many identities start with each byte. -/
structure Names where
  previous : Option Bytes
  fanout : List Nat

def checkName (names : Names) (position : Nat) : Except Error Names :=
  let stride := if index.legacy then index.format.digestLen + 4 else index.format.digestLen
  match slice bytes (index.nameStart 0 + position * stride) index.format.digestLen with
  | none => .error (.corrupt "index table length")
  | some name => do
    reject (names.previous.any fun previous => name ≤ previous) (.corrupt "unsorted or duplicate index identities")
    return ⟨some name, names.fanout.modify (firstByte name) (· + 1)⟩

def checkCumulative (cumulative : Nat) (bucket : Nat × Nat) : Except Error Nat := do
  let found ← word bytes (index.fanoutStart + bucket.2 * 4)
  reject (found ≠ cumulative + bucket.1) (.corrupt "index fanout")
  return cumulative + bucket.1

def validate : Except Error Unit := do
  reject index.stray (.corrupt "index table length")
  reject (bytes.length < index.nameStart 0) (.corrupt "index table length")
  let names ← (List.range index.count).foldlM (index.checkName bytes) ⟨none, List.replicate 256 0⟩
  let _ ← names.fanout.zipIdx.foldlM (index.checkCumulative bytes) 0
  let _ ← index.order bytes
  return ()

end Validate

end Index

end Girt.Pack
