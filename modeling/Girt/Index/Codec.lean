import Girt.Index.Entry

/-!
# The index file

A header, the entries in order, the extensions and a checksum. Versions 2 and 3 pad each entry
to a multiple of eight bytes; version 4 drops what a path shares with the previous one.
-/

namespace Girt.IndexFile
open ByteLib

inductive Version where
  | v2
  | v3
  | v4
  deriving DecidableEq

variable (version : Version)

def Version.word : Version → UInt32
  | v2 => 2
  | v3 => 3
  | v4 => 4

def Version.ofWord (word : UInt32) : Option Version :=
  [v2, v3, v4].find? (fun version => version.word = word)

lemma Version.ofWord_word : ofWord version.word = some version := by
  cases version <;> rfl

structure Extension where
  signature : Signature
  data : Bytes
  deriving DecidableEq

/-- Entries and extensions as they are edited, with the bytes they were parsed from until an edit
changes what those bytes say. -/
structure Index where
  format : ObjectFormat
  version : Version
  original : Option Bytes
  entries : List Entry
  extensions : List Extension
  deriving DecidableEq

namespace Index

/-- Equality of index information; alternative encodings of it are not compared. -/
def Same (left right : Index) : Prop :=
  left.format = right.format ∧ left.version = right.version ∧ left.entries = right.entries ∧
    left.extensions = right.extensions

instance (left right : Index) : Decidable (left.Same right) := inferInstanceAs (Decidable (_ ∧ _))

def has (index : Index) (signature : Signature) : Bool :=
  index.extensions.any (fun extension => extension.signature = signature)

end Index

/-! ## Writing -/

def putWord (value : UInt32) : Bytes := beBytes 4 value.toNat

def Entry.words (entry : Entry) : List UInt32 :=
  [entry.stat.ctime.seconds, entry.stat.ctime.nanoseconds, entry.stat.mtime.seconds,
    entry.stat.mtime.nanoseconds, entry.stat.device, entry.stat.inode, entry.mode.word, entry.stat.uid,
    entry.stat.gid, entry.stat.size]

/-- Disjoint bit fields: assume-valid, extended, two bits of stage, and the saturated name length. -/
def Entry.flags (entry : Entry) : Nat :=
  entry.assumeValid.toNat * 0x8000 + entry.extended.toNat * 0x4000 + entry.stage.toNat * 0x1000 +
    min entry.path.length 0xfff

def Entry.extendedFlags (entry : Entry) : Nat :=
  entry.intentToAdd.toNat * 0x2000 + entry.skipWorktree.toNat * 0x4000

def flagsLen (entry : Entry) : Nat := if entry.extended then 2 else 0

def entrySize (previous : Bytes) (entry : Entry) : Nat :=
  if version = .v4 then
    let common := commonPrefix previous entry.path
    43 + entry.id.format.digestLen + flagsLen entry + (offsetVarint (previous.length - common)).length +
      (entry.path.length - common)
  else (entry.path.length + flagsLen entry + (50 + entry.id.format.digestLen)) / 8 * 8

/-- The size of an entry where the machine can represent it. -/
def encodedEntryLen (previous : Bytes) (entry : Entry) : Except Error Nat :=
  if version = .v4 then do
    reject (entrySize version previous entry > usizeMax) (.limit "bytes")
    .ok (entrySize version previous entry)
  else do
    reject (entry.path.length + flagsLen entry > usizeMax) (.limit "bytes")
    reject (entry.path.length + flagsLen entry + (50 + entry.id.format.digestLen) > usizeMax) (.limit "path bytes")
    .ok (entrySize version previous entry)

def resize (bytes : Bytes) (length : Nat) : Bytes :=
  bytes.take length ++ List.replicate (length - bytes.length) 0

def Entry.fixedBytes (entry : Entry) : Bytes :=
  entry.words.flatMap putWord ++ entry.id.bytes ++ beBytes 2 entry.flags ++
    (if entry.extended then beBytes 2 entry.extendedFlags else [])

def encodeEntry (previous : Bytes) (entry : Entry) : Bytes :=
  if version = .v4 then
    let common := commonPrefix previous entry.path
    entry.fixedBytes ++ offsetVarint (previous.length - common) ++ entry.path.drop common ++ [0]
  else resize (entry.fixedBytes ++ entry.path) (entrySize version previous entry)

def encodeEntries (version : Version) : Bytes → List Entry → Bytes
  | _, [] => []
  | previous, entry :: rest => encodeEntry version previous entry ++ encodeEntries version entry.path rest

def encodeExtension (extension : Extension) : Bytes :=
  extension.signature.bytes ++ beBytes 4 extension.data.length ++ extension.data

/-- The length after the entries, from the length before them. -/
def entriesLen (limits : Limits) (version : Version) : Nat → Bytes → List Entry → Except Error Nat
  | length, _, [] => .ok length
  | length, previous, entry :: rest => do
    checkCount entry.path.length limits.maxPathBytes "path bytes"
    let size ← encodedEntryLen version previous entry
    reject (length + size > usizeMax) (.limit "bytes")
    entriesLen limits version (length + size) entry.path rest

def extensionsLen : Nat → List Extension → Except Error Nat
  | length, [] => .ok length
  | length, extension :: rest => do
    checkCount extension.data.length (2 ^ 32 - 1) "extension bytes"
    reject (length + 8 + extension.data.length > usizeMax) (.limit "bytes")
    extensionsLen (length + 8 + extension.data.length) rest

namespace Index

def encodedLen (index : Index) (limits : Limits) : Except Error Nat := do
  checkCount index.entries.length (min limits.maxEntries (2 ^ 32 - 1)) "entries"
  checkCount index.extensions.length limits.maxExtensions "extensions"
  let length ← entriesLen limits index.version (12 + index.format.digestLen) [] index.entries
  let length ← extensionsLen length index.extensions
  let length := (index.original.map List.length).getD length
  checkCount length limits.maxBytes "bytes"
  .ok length

def content (index : Index) : Bytes :=
  ascii "DIRC" ++ putWord index.version.word ++ beBytes 4 index.entries.length ++
    encodeEntries index.version [] index.entries ++ index.extensions.flatMap encodeExtension

def encode (digests : Digests) (index : Index) (limits : Limits) : Except Error Bytes := do
  let _ ← index.encodedLen limits
  match index.original with
  | some original => .ok original
  | none => .ok (index.content ++ (digests.digest index.format index.content).bytes)

end Index

/-! ## Reading -/

def word (bytes : Bytes) (offset : Nat) : Except Error UInt32 := do
  let chunk := (bytes.drop offset).take 4
  reject (chunk.length ≠ 4) (.malformed offset "truncated integer")
  .ok (UInt32.ofNat (beNat chunk))

def orError {α : Type} (error : Error) : Option α → Except Error α
  | none => .error error
  | some value => .ok value

@[simp] lemma orError_eq_ok {α : Type} {error : Error} {value : Option α} {a : α} :
    orError error value = .ok a ↔ value = some a := by
  cases value <;> simp [orError]

/-- Offset integers as `read_varint` reads them, refusing what a machine word cannot hold. -/
def readVarint (offset value : Nat) : Bytes → Except Error (Nat × Bytes)
  | [] => .error (.malformed offset "truncated path prefix")
  | byte :: rest => do
    let value := value * 128 + byte.toNat % 128
    reject (value > usizeMax) (.malformed (offset + 1) "path prefix overflow")
    if byte.toNat < 128 then .ok (value, rest)
    else do
      reject (value + 1 > usizeMax) (.malformed (offset + 1) "path prefix overflow")
      readVarint (offset + 1) (value + 1) rest

/-- The second flag word, present when bit 14 of the first is set. -/
def readExtendedFlags (position offset flags : Nat) (rest : Bytes) :
    Except Error (Nat × Bytes) :=
  if flags / 0x4000 % 2 = 1 then do
    reject (version = .v2) (.entry position "extended flags unsupported in v2")
    reject (rest.length < 2) (.malformed offset "truncated extended flags")
    let value := beNat (rest.take 2)
    reject (value % 0x2000 ≠ 0 ∨ value ≥ 0x8000) (.entry position "unknown extended flags")
    .ok (value, rest.drop 2)
  else .ok (0, rest)

/-- How many bytes of the previous path a path keeps. -/
def readKept (offset : Nat) (previous rest : Bytes) : Except Error (Nat × Bytes) :=
  if version = .v4 then do
    let (removed, rest') ← readVarint offset 0 rest
    reject (previous.length < removed)
      (.malformed (offset + (rest.length - rest'.length)) "path prefix removes more than previous name")
    .ok (previous.length - removed, rest')
  else .ok (0, rest)

/-- The length of the path bytes before the terminator, searched within the path limit. -/
def readSuffixLen (limits : Limits) (offset kept : Nat) (rest : Bytes) : Except Error Nat :=
  let searched := rest.take (limits.maxPathBytes - kept + 1)
  orError (if searched.length < rest.length then .limit "path bytes" else .malformed offset "unterminated path")
    (searched.idxOf? 0)

def entryEnd (terminated : Nat) : Nat :=
  if version = .v4 then terminated else (terminated + 7) / 8 * 8

def readStat (fixed : Bytes) : Except Error Stat := do
  let ctimeSeconds ← word fixed 0
  let ctimeNanoseconds ← word fixed 4
  let mtimeSeconds ← word fixed 8
  let mtimeNanoseconds ← word fixed 12
  let device ← word fixed 16
  let inode ← word fixed 20
  let uid ← word fixed 28
  let gid ← word fixed 32
  let size ← word fixed 36
  .ok ⟨⟨ctimeSeconds, ctimeNanoseconds⟩, ⟨mtimeSeconds, mtimeNanoseconds⟩, device, inode, uid, gid, size⟩

/-- Reads the entry that starts at `offset` of the file, where `bytes` are left, and returns what
follows it. -/
def parseEntry (format : ObjectFormat) (limits : Limits) (version : Version) (position offset : Nat)
    (previous bytes : Bytes) : Except Error (Entry × Bytes) := do
  let width := format.digestLen
  reject (bytes.length < 42 + width) (.malformed offset "truncated entry")
  let fixed := bytes.take (40 + width)
  let mode ← orError (.entry position "unsupported mode") (Mode.ofWord (← word fixed 24))
  let flags := beNat ((bytes.drop (40 + width)).take 2)
  let (extendedFlags, rest) ← readExtendedFlags version position (offset + 42 + width) flags (bytes.drop (42 + width))
  let (kept, rest) ← readKept version (offset + (bytes.length - rest.length)) previous rest
  checkCount kept limits.maxPathBytes "path bytes"
  let pathStart := bytes.length - rest.length
  let suffixLen ← readSuffixLen limits (offset + pathStart) kept rest
  reject (flags % 0x1000 ≠ min (kept + suffixLen) 0xfff) (.entry position "name length flag mismatch")
  let terminated := pathStart + suffixLen + 1
  let stop := entryEnd version terminated
  reject (bytes.length < stop) (.malformed (offset + terminated) "truncated padding")
  reject (((bytes.drop terminated).take (stop - terminated)).any (fun byte => byte ≠ 0))
    (.malformed (offset + terminated) "nonzero padding")
  let id ← orError (.malformed offset "truncated entry") (ObjectId.fromBytes format (fixed.drop 40))
  let stat ← readStat fixed
  .ok ({ path := previous.take kept ++ rest.take suffixLen, mode := mode, id := id,
         stage := .ofBits (flags / 0x1000 % 4), assumeValid := flags / 0x8000 % 2 = 1,
         intentToAdd := extendedFlags / 0x2000 % 2 = 1, skipWorktree := extendedFlags / 0x4000 % 2 = 1,
         stat := stat }, bytes.drop stop)

def parseEntries (format : ObjectFormat) (limits : Limits) (version : Version) :
    Nat → Nat → Nat → Bytes → Bytes → Except Error (List Entry × Bytes)
  | 0, _, _, _, bytes => .ok ([], bytes)
  | count + 1, position, offset, previous, bytes => do
    let (entry, rest) ← parseEntry format limits version position offset previous bytes
    let (entries, rest) ← parseEntries format limits version count (position + 1)
      (offset + (bytes.length - rest.length)) entry.path rest
    .ok (entry :: entries, rest)

def signatureOf (bytes : Bytes) : Option Signature :=
  if h : 8 ≤ bytes.length then some ⟨bytes.take 4, by simp; omega⟩ else none

def parseExtensions (limits : Limits) (offset seen : Nat) (bytes : Bytes) : Except Error (List Extension) :=
  if hbytes : bytes = [] then .ok []
  else do
    checkCount (seen + 1) limits.maxExtensions "extensions"
    let signature ← orError (.malformed offset "truncated extension header") (signatureOf bytes)
    reject (!signature.optional ∧ signature ≠ .link ∧ signature ≠ .sdir) (.mandatoryExtension signature)
    let length := (← word bytes 4).toNat
    let data := (bytes.drop 8).take length
    reject (data.length ≠ length) (.malformed (offset + 8) "truncated extension payload")
    let rest ← parseExtensions limits (offset + 8 + length) (seen + 1) (bytes.drop (8 + length))
    .ok (⟨signature, data⟩ :: rest)
termination_by bytes.length
decreasing_by
  have := List.length_pos_of_ne_nil hbytes
  simp
  omega

/-- Sparse directories need the `sdir` extension, of which there is one, without data. -/
def checkSparse (offset : Nat) (entries : List Entry) (extensions : List Extension) : Except Error Unit := do
  let sparse := extensions.filter (fun extension => extension.signature = .sdir)
  reject (sparse.length > 1 ∨ sparse.head?.any (fun extension => extension.data ≠ []))
    (.malformed offset "invalid sparse extension")
  reject (entries.any (fun entry => entry.mode = .sparseDirectory) ∧ sparse = [])
    (.malformed offset "sparse directory without sdir extension")

def Index.parseFile (digests : Digests) (format : ObjectFormat) (bytes : Bytes) (limits : Limits) :
    Except Error Index := do
  checkCount bytes.length limits.maxBytes "bytes"
  reject (bytes.length < 12 + format.digestLen ∨ ¬ (ascii "DIRC").isPrefixOf bytes)
    (.malformed 0 "missing header or checksum")
  let versionWord ← word bytes 4
  let version ← orError (.version versionWord) (Version.ofWord versionWord)
  let stop := bytes.length - format.digestLen
  let content := bytes.take stop
  reject ((digests.digest format content).bytes ≠ bytes.drop stop) .checksum
  let count := (← word bytes 8).toNat
  checkCount count limits.maxEntries "entries"
  reject (count > (stop - 12) / (43 + format.digestLen)) (.malformed 8 "entry count exceeds available bytes")
  let (entries, rest) ← parseEntries format limits version count 0 12 [] (content.drop 12)
  let extensions ← parseExtensions limits (stop - rest.length) 0 rest
  checkSparse stop entries extensions
  if extensions.any (fun extension => extension.signature = .link) then .ok () else validateEntries format entries limits
  .ok ⟨format, version, some bytes, entries, extensions⟩

end Girt.IndexFile
