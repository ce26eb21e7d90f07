import Girt.Lib.Bytes

/-!
# Object identities and the functions supplied by other crates

Hashing, checksums and compression live outside the repository. They are parameters of every
function that calls them.
-/

namespace Girt
open ByteLib

def ascii (text : String) : Bytes := text.toList.map (fun c => UInt8.ofNat c.toNat)

/-- `usize::MAX` on the 64-bit targets the crate builds for. -/
def usizeMax : Nat := 2 ^ 64 - 1

inductive ObjectFormat where
  | sha1
  | sha256
  deriving DecidableEq

namespace ObjectFormat

def digestLen : ObjectFormat → Nat
  | sha1 => 20
  | sha256 => 32

lemma digestLen_pos (format : ObjectFormat) : 0 < format.digestLen := by
  cases format <;> decide

end ObjectFormat

inductive ObjectKind where
  | blob
  | tree
  | commit
  | tag
  deriving DecidableEq

namespace ObjectKind

def asStr : ObjectKind → Bytes
  | blob => ascii "blob"
  | tree => ascii "tree"
  | commit => ascii "commit"
  | tag => ascii "tag"

end ObjectKind

/-- An identity of one hash format; the digest has that format's width. -/
@[ext] structure ObjectId where
  format : ObjectFormat
  bytes : Bytes
  width : bytes.length = format.digestLen
  deriving DecidableEq

namespace ObjectId

def fromBytes (format : ObjectFormat) (bytes : Bytes) : Option ObjectId :=
  if width : bytes.length = format.digestLen then some ⟨format, bytes, width⟩ else none

def null (format : ObjectFormat) : ObjectId :=
  ⟨format, List.replicate format.digestLen 0, by simp⟩

def isNull (id : ObjectId) : Bool := id.bytes.all (· == 0)

@[simp] lemma fromBytes_bytes (id : ObjectId) : fromBytes id.format id.bytes = some id := by
  simp [fromBytes, id.width]

lemma fromBytes_eq_some {format : ObjectFormat} {bytes : Bytes} {id : ObjectId}
    (h : fromBytes format bytes = some id) : id.format = format ∧ id.bytes = bytes := by
  unfold fromBytes at h
  split at h
  · cases h
    exact ⟨rfl, rfl⟩
  · cases h

end ObjectId

/-- The SHA-1 and SHA-256 contexts, which always produce a digest of the selected width. -/
structure Digests where
  digest : ObjectFormat → Bytes → ObjectId
  digest_format : ∀ format bytes, (digest format bytes).format = format

def objectHeader (kind : ObjectKind) (size : Nat) : Bytes := kind.asStr ++ ascii " " ++ ascii (toString size) ++ [0]

def Digests.hashObject (digests : Digests) (format : ObjectFormat) (kind : ObjectKind) (data : Bytes) : ObjectId :=
  digests.digest format (objectHeader kind data.length ++ data)

/-- The zlib codec. Decompression reports whether the stream ended, the output and the input
consumed, or a failure; it stops at the capacity of its output buffer. -/
structure Zlib where
  compress : Bytes → Bytes
  decompress : Bytes → Nat → Option (Bool × Bytes × Nat)

/-- Decompression restores any compressed input that fits the buffer with a byte to spare, and
consumes exactly the compressed bytes. -/
def Zlib.Inverts (zlib : Zlib) : Prop :=
  ∀ (body rest : Bytes) (capacity : Nat), body.length < capacity →
    zlib.decompress (zlib.compress body ++ rest) capacity =
      some (true, body, (zlib.compress body).length)

end Girt
