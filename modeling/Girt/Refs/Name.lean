import Girt.Object

/-!
# Reference names and targets
-/

namespace Girt.Refs
open ByteLib

/-- The byte rules a full reference name obeys. -/
def validRefName (bytes : Bytes) : Bool :=
  bytes == ascii "HEAD" ||
    !(!(ascii "refs/").isPrefixOf bytes
      || (ascii ".").isSuffixOf bytes
      || (bytes.zip bytes.tail).any (fun pair =>
          [pair.1, pair.2] == ascii ".." || [pair.1, pair.2] == ascii "@\x7b")
      || bytes.any (fun b => b ≤ 32 || b == 127 || (ascii "~^:?*[\\").contains b)
      || (bytes.splitOn 47).any (fun part =>
          part.isEmpty || (ascii ".").isPrefixOf part || (ascii ".lock").isSuffixOf part))

/-- `HEAD` or a valid full name under `refs/`. -/
@[ext] structure RefName where
  bytes : Bytes
  valid : validRefName bytes = true
  deriving DecidableEq

namespace RefName

def new (bytes : Bytes) : Option RefName :=
  if valid : validRefName bytes = true then some ⟨bytes, valid⟩ else none

def head : RefName := ⟨ascii "HEAD", by decide⟩

def perWorktree (name : RefName) : Bool :=
  name.bytes == ascii "HEAD" ||
    [ascii "refs/bisect/", ascii "refs/rewritten/", ascii "refs/worktree/"].any
      (fun start => start.isPrefixOf name.bytes)

@[simp] lemma new_bytes (name : RefName) : new name.bytes = some name := by
  simp [new, name.valid]

lemma new_eq_some {bytes : Bytes} {name : RefName} (h : new bytes = some name) :
    name.bytes = bytes := by
  unfold new at h
  split at h
  · cases h
    rfl
  · cases h

end RefName

inductive Target where
  | direct (id : ObjectId)
  | symbolic (name : RefName)
  deriving DecidableEq

end Girt.Refs
