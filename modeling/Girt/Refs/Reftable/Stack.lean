import Mathlib.Data.Prod.Lex
import Mathlib.Order.OrderDual
import Girt.Refs.Edit
import Girt.Refs.Reftable.Decode

/-!
# Stacks of tables

A stack lists immutable tables in `tables.list`, oldest first. Reading it merges them; newer
records replace older ones with the same key, and tombstones stay visible.
-/

namespace Girt.Refs.Reftable
open ByteLib

structure Codec where
  zlib : Zlib
  crc32 : Bytes → UInt32

structure StackLimits where
  tables : UInt64
  listBytes : UInt64
  records : Limits

structure StackDir where
  list : Option Bytes
  file : Bytes → Option Bytes

structure Snapshot where
  table : Table
  names : List Bytes
  usedBytes : Nat
  usedRecords : Nat
  usedDecoded : Nat

def tablesList : Path := ascii "tables.list"

def validTableName (line : Bytes) : Bool :=
  !(line.isEmpty
    || !line.all (fun b => (48 ≤ b && b ≤ 57) || (65 ≤ b && b ≤ 90) || (97 ≤ b && b ≤ 122)
        || b == 45 || b == 95 || b == 46)
    || (ascii ".").isPrefixOf line
    || !((ascii ".ref").isSuffixOf line || (ascii ".log").isSuffixOf line))

def listStep (limits : StackLimits) (names : List Bytes) (line : Bytes) :
    Except ReferenceError (List Bytes) := do
  reject (names.length = limits.tables.toNat) (.reftable (.limit "stack table count"))
  reject (validTableName line = false) (.malformed tablesList "invalid stack table filename")
  reject (line ∈ names) (.malformed tablesList "duplicate stack table")
  pure (names ++ [line])

def listNames (limits : StackLimits) (bytes : Bytes) : Except ReferenceError (List Bytes) :=
  if bytes = [] then .ok []
  else if bytes.getLast? ≠ some 10 then .error (.malformed tablesList "unterminated stack list")
  else (bytes.dropLast.splitOn 10).foldlM (listStep limits) []

/-- Logs sort by name, then newest first. -/
abbrev LogKey := Bytes ×ₗ UInt64ᵒᵈ

def LogRecord.key (record : LogRecord) : LogKey :=
  toLex (record.name.bytes, OrderDual.toDual record.updateIndex)

def RefRecord.key (record : RefRecord) : Bytes := record.name.bytes

/-- Merged records, each under its own key, and the budget left for the tables still to be read. -/
structure Merge where
  references : OrdMap Bytes RefRecord
  references_keyed : references.Keyed RefRecord.key
  logs : OrdMap LogKey LogRecord
  logs_keyed : logs.Keyed LogRecord.key
  remaining : Limits
  min : UInt64
  max : UInt64
  tables : Nat

def Merge.add (s : Merge) (table : Table) : Merge :=
  { s with
    references := s.references.insertAll (table.references.map (fun r => (r.key, r)))
    references_keyed := s.references_keyed.insertAll _
    logs := s.logs.insertAll (table.logs.map (fun r => (r.key, r)))
    logs_keyed := s.logs_keyed.insertAll _
    min := if s.tables = 0 then table.minUpdateIndex else s.min
    max := table.maxUpdateIndex
    tables := s.tables + 1 }

def Limits.spend (limits : Limits) (bytes records decoded : Nat) : Limits :=
  { limits with
    bytes := limits.bytes - UInt64.ofNat bytes
    records := limits.records - UInt64.ofNat records
    decodedBytes := limits.decodedBytes - UInt64.ofNat decoded }

def Merge.charge (s : Merge) (bytes records decoded : Nat) : Merge :=
  { s with remaining := s.remaining.spend bytes records decoded }

def mergeTable (codec : Codec) (format : ObjectFormat) (s : Merge) (bytes : Bytes) :
    Except ReferenceError Merge := do
  reject (bytes.length > s.remaining.bytes.toNat) (.reftable (.limit "stack bytes"))
  let (table, records, decoded) ←
    wrapError .reftable (Table.decodeUsage codec.zlib codec.crc32 bytes s.remaining)
  reject (table.format ≠ format) (.reftable (.malformed "stack hash format"))
  reject (s.tables ≠ 0 ∧ table.minUpdateIndex ≤ s.max) (.reftable (.malformed "stack update order"))
  pure ((s.add table).charge bytes.length records decoded)

def openTable (dir : StackDir) (name : Bytes) : Except ReferenceError Bytes :=
  match dir.file name with
  | some bytes => .ok bytes
  | none => .error (.io name)

def readList (dir : StackDir) (limits : StackLimits) : Except ReferenceError Bytes :=
  match dir.list with
  | none => .ok []
  | some bytes => do
    reject (bytes.length > limits.listBytes.toNat) (.reftable (.limit "stack bytes"))
    pure bytes

def Merge.empty (limits : StackLimits) : Merge :=
  ⟨.empty, OrdMap.keyed_empty, .empty, OrdMap.keyed_empty, limits.records, 0, 0, 0⟩

def Merge.snapshot (s : Merge) (format : ObjectFormat) (limits : StackLimits) (names : List Bytes) :
    Snapshot :=
  ⟨⟨format, s.min, s.max, s.references.values, s.logs.values⟩, names,
    limits.records.bytes.toNat - s.remaining.bytes.toNat,
    limits.records.records.toNat - s.remaining.records.toNat,
    limits.records.decodedBytes.toNat - s.remaining.decodedBytes.toNat⟩

namespace Snapshot

def read (codec : Codec) (dir : StackDir) (format : ObjectFormat) (limits : StackLimits) :
    Except ReferenceError Snapshot := do
  let bytes ← readList dir limits
  let names ← listNames limits bytes
  let files ← names.mapM (openTable dir)
  let merge ← files.foldlM (mergeTable codec format) (Merge.empty limits)
  pure (merge.snapshot format limits names)

end Snapshot

def hexDigit (n : Nat) : UInt8 := if n < 10 then UInt8.ofNat (48 + n) else UInt8.ofNat (87 + n)

def hexDigits (n : Nat) : Bytes :=
  if n < 16 then [hexDigit n] else hexDigits (n / 16) ++ [hexDigit (n % 16)]
termination_by n

def hexPadded (width n : Nat) : Bytes :=
  List.replicate (width - (hexDigits n).length) 48 ++ hexDigits n

/-- Names a table after its update range and a random suffix. -/
def tableName (minUpdateIndex maxUpdateIndex : UInt64) (suffix : UInt32) : Bytes :=
  ascii "0x" ++ hexPadded 12 minUpdateIndex.toNat ++ ascii "-0x" ++ hexPadded 12 maxUpdateIndex.toNat ++
    ascii "-" ++ hexPadded 8 suffix.toNat ++ ascii ".ref"

/-- The first of up to sixteen generated names that is not taken. -/
def createTableFile (dir : StackDir) (table : Table) (suffixes : List UInt32) :
    Except ReferenceError Bytes :=
  match ((suffixes.take 16).map (tableName table.minUpdateIndex table.maxUpdateIndex)).find?
      (fun name => (dir.file name).isNone) with
  | some name => .ok name
  | none => .error (.io tablesList)

def joinLines (names : List Bytes) : Bytes := names.flatMap (fun name => name ++ [10])

/-- Adds a table file to the directory and replaces the list by `names` and the new table. -/
def publish (limits : StackLimits) (dir : StackDir) (names : List Bytes) (table : Table) (bytes : Bytes)
    (suffixes : List UInt32) : Except ReferenceError StackDir := do
  reject (names.length ≥ limits.tables.toNat) (.reftable (.limit "stack table count"))
  let name ← createTableFile dir table suffixes
  let list := joinLines (names ++ [name])
  reject (list.length > limits.listBytes.toNat) (.reftable (.limit "stack list bytes"))
  pure ⟨some list, fun other => if other = name then some bytes else dir.file other⟩

/-- Live records only: full-stack tombstones hide nothing older. -/
def Table.live (table : Table) : Table :=
  { table with
    references := table.references.filter (fun r => r.target.isSome)
    logs := table.logs.filter (fun r => r.value.isSome) }

/-- Replaces the whole stack by one table of its live records. The old files for which `removed`
holds are unlinked; the others stay, unlisted. -/
def compact (codec : Codec) (format : ObjectFormat) (limits : StackLimits) (dir : StackDir)
    (suffixes : List UInt32) (removed : Bytes → Bool) : Except ReferenceError StackDir := do
  let snapshot ← Snapshot.read codec dir format limits
  if snapshot.names = [] then pure dir
  else
    let table := snapshot.table.live
    let bytes ← wrapError .reftable (table.encode codec.zlib codec.crc32 limits.records)
    let published ← publish limits dir [] table bytes suffixes
    pure { published with
      file := fun name =>
        if name ∈ snapshot.names ∧ removed name then none else published.file name }

end Girt.Refs.Reftable
