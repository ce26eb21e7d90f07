import Girt.Refs.Reftable.Records

/-!
# Encoding one table

References and logs are laid out in data blocks of a nominal size, each followed by its restart
offsets; a section of several blocks is followed by one index block.
-/

namespace Girt.Refs.Reftable
open ByteLib

variable (format : ObjectFormat)

def refBlock : UInt8 := 114

def logBlock : UInt8 := 103

def indexBlock : UInt8 := 105

def objectBlock : UInt8 := 111

def varint (value : UInt64) : Bytes := offsetVarint value.toNat

def uint24 (value : Nat) : Bytes := beBytes 3 value

def key (name : Bytes) (kind : Nat) : Bytes :=
  0 :: (varint (UInt64.ofNat (name.length <<< 3 ||| kind)) ++ name)

def string (value : Bytes) : Bytes := varint (UInt64.ofNat value.length) ++ value

def indexRecord (name : Bytes) (position : UInt64) : Bytes := key name 0 ++ varint position

def requireFormat (id : ObjectId) : Except Error Unit :=
  reject (id.format ≠ format) (.malformed "mixed object formats")

def refKind (record : RefRecord) : Except Error Nat :=
  match record.target, record.peeled with
  | none, none => .ok 0
  | some (.direct _), none => .ok 1
  | some (.direct _), some _ => .ok 2
  | some (.symbolic _), none => .ok 3
  | _, _ => .error (.malformed "peeled value without direct target")

def targetBytes : Option Target → Except Error Bytes
  | some (.direct id) => do
    requireFormat format id
    .ok id.bytes
  | some (.symbolic name) => .ok (string name.bytes)
  | none => .ok []

def peeledBytes : Option ObjectId → Except Error Bytes
  | some id => do
    requireFormat format id
    .ok id.bytes
  | none => .ok []

def encodeRef (table : Table) (record : RefRecord) : Except Error (Bytes × Bytes) := do
  let kind ← refKind record
  reject (record.updateIndex < table.minUpdateIndex) (.malformed "reference update range")
  let delta := record.updateIndex - table.minUpdateIndex
  let target ← targetBytes table.format record.target
  let peeled ← peeledBytes table.format record.peeled
  .ok (record.name.bytes, key record.name.bytes kind ++ varint delta ++ target ++ peeled)

def logKey (name : Bytes) (updateIndex : UInt64) : Bytes :=
  name ++ 0 :: beBytes 8 (~~~updateIndex).toNat

def logValueBytes (value : LogValue) : Except Error Bytes := do
  requireFormat format value.old
  requireFormat format value.new
  let offset ← Timezone.encode value.offsetMinutes
  .ok (value.old.bytes ++ value.new.bytes ++ string value.name ++ string value.email ++
    varint value.seconds ++ offset ++ string value.message)

def encodeLog (table : Table) (record : LogRecord) : Except Error (Bytes × Bytes) := do
  let name := logKey record.name.bytes record.updateIndex
  match record.value with
  | none => .ok (name, key name 0)
  | some value => do
    let bytes ← logValueBytes table.format value
    .ok (name, key name 1 ++ bytes)

namespace Writer

variable (zlib : Zlib) (limits : Limits)

def append (bytes more : Bytes) : Except Error Bytes :=
  if more.length > limits.bytes.toNat - bytes.length then .error (.limit "table bytes")
  else .ok (bytes ++ more)

/-- Records, their restart offsets and the restart count: the body of a block. -/
def blockBody (records : Bytes) (restarts : List Nat) : Bytes :=
  records ++ restarts.flatMap uint24 ++ beBytes 2 restarts.length

def blockLength (records : Bytes) (restarts : List Nat) (start : Nat) : Nat :=
  start + 4 + records.length + restarts.length * 3 + 2

/-- Appends one block. The first block of a table counts the file header that precedes it
(`start`) in its length and offsets, and has position zero. -/
def block (zlib : Zlib) (limits : Limits) (bytes : Bytes) (kind : UInt8) (records : Bytes)
    (restarts : List Nat) (start : Nat) : Except Error (UInt64 × Bytes) := do
  let length := blockLength records restarts start
  reject (length > limits.blockBytes.toNat ∨ length > 0xffffff ∨ restarts.length > 65535)
    (.limit "block bytes or restarts")
  let position := if start ≠ 0 then 0 else UInt64.ofNat bytes.length
  let body := blockBody records restarts
  let bytes ← append limits bytes (kind :: uint24 length)
  let bytes ← append limits bytes (if kind = logBlock then zlib.compress body else body)
  pure (position, bytes)

/-- The open block of a section and the index records of the blocks before it. -/
structure Section where
  bytes : Bytes
  index : List Bytes
  block : Bytes
  restarts : List Nat
  last : Bytes
  start : Nat

def flush (kind : UInt8) (s : Section) : Except Error Section := do
  let (position, bytes) ← block zlib limits s.bytes kind s.block s.restarts s.start
  pure { s with bytes, index := s.index ++ [indexRecord s.last position], block := [],
                restarts := [], start := 0 }

/-- Writes the open block first when a record would push it past the nominal size. -/
def roomFor (kind : UInt8) (s : Section) (record : Bytes) :
    Except Error Section :=
  if s.block ≠ [] ∧ s.block.length + record.length + s.restarts.length * 3 + 9 + s.start > 4096 then
    flush zlib limits kind s
  else .ok s

def sectionStep (kind : UInt8) (s : Section)
    (entry : Bytes × Bytes) : Except Error Section := do
  let s ← roomFor zlib limits kind s entry.2
  reject (entry.2.length + s.block.length + s.restarts.length * 3 + 9 + s.start >
    limits.blockBytes.toNat) (.limit "block bytes")
  pure { s with restarts := s.restarts ++ [s.block.length + s.start + 4],
                block := s.block ++ entry.2, last := entry.1 }

def finish (kind : UInt8) (s : Section) : Except Error Section :=
  if s.block ≠ [] then flush zlib limits kind s else .ok s

/-- The records of an index block and their offsets. -/
def indexBody (index : List Bytes) : Bytes × List Nat :=
  index.foldl (fun body record => (body.1 ++ record, body.2 ++ [body.1.length + 4])) ([], [])

/-- Writes a section of records and returns the position of its index block, zero when it has
at most one data block. -/
def writeSection (bytes : Bytes) (kind : UInt8)
    (records : List (Bytes × Bytes)) (start : Nat) : Except Error (UInt64 × Bytes) := do
  let s ← records.foldlM (sectionStep zlib limits kind) ⟨bytes, [], [], [], [], start⟩
  let s ← finish zlib limits kind s
  if s.index.length < 2 then
    pure (0, s.bytes)
  else
    let body := indexBody s.index
    let (position, bytes) ← block zlib limits s.bytes indexBlock body.1 body.2 0
    pure (position, bytes)

end Writer

namespace Table

def account (limits : Limits) (total length : Nat) : Except Error Nat :=
  if length > limits.stringBytes.toNat then .error (.limit "string bytes")
  else if total + length > usizeMax then .error (.limit "decoded bytes")
  else if total + length > limits.decodedBytes.toNat then .error (.limit "decoded bytes")
  else .ok (total + length)

/-- The strings whose lengths count against the budgets, in the order they are counted. -/
def accounted (table : Table) : List Nat :=
  table.references.flatMap (fun record => record.name.bytes.length ::
      match record.target with
      | some (.symbolic name) => [name.bytes.length]
      | _ => []) ++
    table.logs.flatMap (fun record => min (record.name.bytes.length + 9) usizeMax ::
      match record.value with
      | some value => [value.name.length, value.email.length, value.message.length]
      | none => [])

def checkLimits (table : Table) (limits : Limits) : Except Error Unit := do
  reject (min (table.references.length + table.logs.length) usizeMax > limits.records.toNat)
    (.limit "record count")
  let _ ← table.accounted.foldlM (account limits) 0
  pure ()

def header (table : Table) : Bytes :=
  ascii "REFT" ++ [if table.format = .sha1 then 1 else 2] ++ [0, 0, 0] ++
    beBytes 8 table.minUpdateIndex.toNat ++ beBytes 8 table.maxUpdateIndex.toNat ++
    (if table.format = .sha256 then ascii "s256" else [])

/-- The footer repeats the header and locates the sections; its checksum follows. -/
def footer (crc32 : Bytes → UInt32) (header : Bytes) (positions : List UInt64) : Bytes :=
  let fields := header ++ positions.flatMap (fun position => beBytes 8 position.toNat)
  fields ++ beBytes 4 (crc32 fields).toNat

/-- The bytes of the table before they are checked by decoding them. -/
def layout (zlib : Zlib) (crc32 : Bytes → UInt32) (table : Table) (limits : Limits) :
    Except Error Bytes := do
  table.checkLimits limits
  let references ← table.references.mapM (encodeRef table)
  let (refIndex, bytes) ←
    Writer.writeSection zlib limits table.header refBlock references table.header.length
  let logPosition := if table.logs = [] then 0 else UInt64.ofNat bytes.length
  let logs ← table.logs.mapM (encodeLog table)
  let (logIndex, bytes) ← Writer.writeSection zlib limits bytes logBlock logs 0
  Writer.append limits bytes
    (footer crc32 table.header [refIndex, 0, 0, logPosition, logIndex])

end Table

end Girt.Refs.Reftable
