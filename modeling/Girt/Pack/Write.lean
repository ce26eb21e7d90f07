import Girt.Pack.Index

/-!
# Writing pack indexes

The index of a pack is written from its entries in the order of their identities. Offsets that need more than
31 bits go to a table of their own.
-/

namespace Girt.Pack
open ByteLib Index

inductive WriteError where
  | limit (name : String)
  /-- The source panics: an addition overflows. -/
  | panic
  deriving DecidableEq

structure IndexEntry where
  id : ObjectId
  offset : UInt64
  crc : UInt32
  deriving DecidableEq

/-- Appends to the output, whose length has to fit 64 bits. -/
def put (out more : Bytes) : Except WriteError Bytes :=
  if out.length + more.length ≤ 2 ^ 64 - 1 then .ok (out ++ more) else .error (.limit "index bytes")

def countEntry (fanout : List Nat) (entry : IndexEntry) : Except WriteError (List Nat) := do
  reject (2 ^ 32 ≤ fanout.getD (firstByte entry.id.bytes) 0 + 1) WriteError.panic
  return fanout.modify (firstByte entry.id.bytes) (· + 1)

def putTotal (state : Bytes × Nat) (bucket : Nat) : Except WriteError (Bytes × Nat) := do
  reject (2 ^ 32 ≤ state.2 + bucket) WriteError.panic
  let out ← put state.1 (beBytes 4 (state.2 + bucket))
  return (out, state.2 + bucket)

def putOffset (state : Bytes × Nat) (entry : IndexEntry) : Except WriteError (Bytes × Nat) :=
  if entry.offset.toNat < 0x80000000 then do
    let out ← put state.1 (beBytes 4 entry.offset.toNat)
    return (out, state.2)
  else do
    reject (state.2 = 0x80000000) (WriteError.limit "large offsets")
    let out ← put state.1 (beBytes 4 (state.2 ||| 0x80000000))
    return (out, state.2 + 1)

def putLarge (out : Bytes) (entry : IndexEntry) : Except WriteError Bytes :=
  if 0x80000000 ≤ entry.offset.toNat then put out (beBytes 8 entry.offset.toNat) else .ok out

def writeIndex (entries : List IndexEntry) (checksum : ObjectId) (out : Bytes) : Except WriteError Bytes := do
  let out ← put out (magic ++ [0, 0, 0, 2])
  let fanout ← entries.foldlM countEntry (List.replicate 256 0)
  let totals ← fanout.foldlM putTotal (out, 0)
  let out ← entries.foldlM (fun out entry => put out entry.id.bytes) totals.1
  let out ← entries.foldlM (fun out entry => put out (beBytes 4 entry.crc.toNat)) out
  let offsets ← entries.foldlM putOffset (out, 0)
  let out ← entries.foldlM putLarge offsets.1
  put out checksum.bytes

def encodeIndex (digests : Digests) (entries : List IndexEntry) (checksum : ObjectId) : Except WriteError Bytes := do
  let out ← writeIndex entries checksum []
  put out (digests.digest checksum.format out).bytes

end Girt.Pack
