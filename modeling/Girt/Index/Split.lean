import Girt.Index.Codec

/-!
# Split indexes

The `link` extension names a shared file and, in two compressed bitmaps, the entries of it that
are deleted and those that are replaced. The first entries of the index are the replacements, in
order; the others are additions.
-/

namespace Girt.IndexFile
open ByteLib

def invalid (reason : String) : Error := .malformed 0 reason

def readU32 (bytes : Bytes) : Except Error (Nat × Bytes) := do
  reject (bytes.length < 4) (invalid "truncated bitmap header")
  .ok (beNat (bytes.take 4), bytes.drop 4)

/-- The positions a run of literal words sets, and the offset after them. -/
def bitmapLiterals (bits : Nat) : Nat → List Nat → Except Error (List Nat × Nat)
  | offset, [] => .ok ([], offset)
  | offset, value :: rest => do
    let set := ((List.range 64).filter (fun bit => value.testBit bit)).map (fun bit => offset + bit)
    reject (set.any (fun position => bits ≤ position)) (invalid "set bitmap padding")
    reject (offset + 64 > bits + 63) (invalid "bitmap exceeds bit length")
    let (positions, stop) ← bitmapLiterals bits (offset + 64) rest
    .ok (set ++ positions, stop)

/-- Each run word gives a bit, how many words repeat it, and how many literal words follow. The
result is the set positions, the offset after them and the index of the last run word. -/
def bitmapRuns (bits offset index lastRun : Nat) (words : List Nat) : Except Error (List Nat × Nat × Nat) :=
  match words with
  | [] => .ok ([], offset, lastRun)
  | run :: rest => do
    let repeats := run / 2 % 2 ^ 32
    let literals := run / 2 ^ 33
    let next := offset + repeats * 64
    reject (next > bits + 63 ∨ literals > rest.length) (invalid "invalid bitmap run")
    reject (run % 2 = 1 ∧ next > bits) (invalid "set bitmap padding")
    let set := if run % 2 = 1 then List.range' offset (repeats * 64) else []
    let (positions, stop) ← bitmapLiterals bits next (rest.take literals)
    let (more, stop, last) ← bitmapRuns bits stop (index + 1 + literals) index (rest.drop literals)
    .ok (set ++ positions ++ more, stop, last)
termination_by words.length
decreasing_by
  rw [List.length_drop, List.length_cons]
  omega

def bitmapWords : Nat → Bytes → List Nat
  | 0, _ => []
  | count + 1, data => beNat (data.take 8) :: bitmapWords count (data.drop 8)

def bitmap (bytes : Bytes) (maximum : Nat) : Except Error (List Nat × Bytes) := do
  let (bits, rest) ← readU32 bytes
  reject (bits > maximum) (invalid "bitmap exceeds shared entries")
  let (words, rest) ← readU32 rest
  reject (rest.length < words * 8) (invalid "truncated bitmap")
  let data := rest.take (words * 8)
  let (current, rest) ← readU32 (rest.drop (words * 8))
  reject (words = 0 ∨ current ≥ words) (invalid "invalid bitmap run pointer")
  let (positions, offset, lastRun) ← bitmapRuns bits 0 0 0 (bitmapWords words data)
  reject (offset < bits ∨ current ≠ lastRun) (invalid "invalid bitmap length or run pointer")
  .ok (positions, rest)

/-- Puts each replacement in its slot; an empty path keeps the path of the slot. -/
def replaceSlots : List Entry → List (Nat × Entry) → Except Error (List Entry)
  | base, [] => .ok base
  | base, (position, entry) :: rest => do
    let slot ← orError (invalid "replaced entry outside shared index") base[position]?
    let entry := if entry.path = [] then { entry with path := slot.path } else entry
    replaceSlots (base.set position entry) rest

def removePositions (deleted : List Nat) (entries : List Entry) : List Entry :=
  (entries.zipIdx.filter (fun pair => !deleted.contains pair.2)).map Prod.fst

/-- `(path, stage)` order, as every construction and edit sorts entries. -/
def sortEntries (entries : List Entry) : List Entry :=
  entries.insertionSort (fun a b => a.key ≤ b.key)

namespace Index

def empty (format : ObjectFormat) : Index := ⟨format, .v2, none, [], []⟩

def sharedIndexId (index : Index) : Option ObjectId := do
  let link ← index.extensions.find? (fun extension => extension.signature = .link)
  let id ← ObjectId.fromBytes index.format (link.data.take index.format.digestLen)
  if id = .null index.format then none else some id

/-- The deleted and replaced positions of a link whose shared file has `count` entries. A null
identity without bitmaps is a standalone index. -/
def linkBitmaps (data : Bytes) (id : ObjectId) (count : Nat) : Except Error (List Nat × List Nat) := do
  let rest := data.drop id.format.digestLen
  if rest = [] ∧ id = .null id.format then .ok ([], [])
  else do
    let (deleted, rest) ← bitmap rest count
    let (replaced, rest) ← bitmap rest count
    reject (rest ≠ []) (invalid "trailing link bytes")
    .ok (deleted, replaced)

def resolveEntries (format : ObjectFormat) (limits : Limits) (data : Bytes) (id : ObjectId)
    (base drafts : List Entry) : Except Error (List Entry) := do
  let (deleted, replaced) ← linkBitmaps data id base.length
  reject (drafts.length < replaced.length) (invalid "missing replacement entries")
  let slots ← replaceSlots base (replaced.zip drafts)
  let kept := removePositions deleted slots
  let additions := drafts.drop replaced.length
  reject (kept.length + additions.length > limits.maxEntries) (.limit "entries")
  validateEntries format additions limits
  let entries := sortEntries (kept ++ additions)
  validateEntries format entries limits
  .ok entries

/-- The shared index a link names; a null identity stands for an empty one. -/
def sharedBase (format : ObjectFormat) (shared : ObjectId → Except Error Index) (id : ObjectId) :
    Except Error Index :=
  if id = .null format then .ok (empty format) else shared id

/-- Resolves the index against the shared file that `shared` finds for an identity. -/
def resolveWith (index : Index) (shared : ObjectId → Except Error Index) (limits : Limits) : Except Error Index :=
  match index.extensions.filter (fun extension => extension.signature = .link) with
  | [] => .ok index
  | [link] => do
    let id ← orError (invalid "truncated shared identity")
      (ObjectId.fromBytes index.format (link.data.take index.format.digestLen))
    let base ← sharedBase index.format shared id
    let entries ← resolveEntries index.format limits link.data id base.entries index.entries
    .ok { index with entries := entries }
  | _ => .error (invalid "duplicate link extension")

def parse (digests : Digests) (format : ObjectFormat) (bytes : Bytes) (limits : Limits) : Except Error Index := do
  let index ← parseFile digests format bytes limits
  index.resolveWith (fun id => .error (.sharedRequired id)) limits

def readShared (digests : Digests) (format : ObjectFormat) (shared : Option Bytes) (length : Nat)
    (limits : Limits) (id : ObjectId) : Except Error Index := do
  let bytes ← orError (.sharedRequired id) shared
  reject (bytes.length > limits.maxBytes - length) (.limit "aggregate index bytes")
  let base ← parse digests format bytes limits
  reject (base.has .link) (invalid "nested shared index")
  reject (¬ id.bytes.isSuffixOf bytes) .checksum
  .ok base

def parseWithShared (digests : Digests) (format : ObjectFormat) (bytes : Bytes) (shared : Option Bytes)
    (limits : Limits) : Except Error Index := do
  let index ← parseFile digests format bytes limits
  index.resolveWith (readShared digests format shared ((index.original.map List.length).getD 0) limits) limits

end Index

end Girt.IndexFile
