import Girt.Refs.Files.Publish

/-!
# Packing references

Packing copies loose direct references into the packed file and then removes each loose file that
still holds the packed value. Other processes change references meanwhile; what they may do is
governed by the lock of each reference and the lock of the packed file.
-/

namespace Girt.Refs.Files
open ByteLib Pieces

/-- The objects of a repository. Each one is stored under the digest of its contents. -/
structure Objects (digests : Digests) (format : ObjectFormat) where
  read : ObjectId → Option (ObjectKind × Bytes)
  verified : ∀ id kind data, read id = some (kind, data) → id = digests.hashObject format kind data

def kindOf (bytes : Bytes) : Option ObjectKind :=
  [ObjectKind.blob, .tree, .commit, .tag].find? (fun kind => kind.asStr = bytes)

/-- The value of a header line that must begin with `key`. -/
def requiredLine (key : Bytes) (line : Option Bytes) : Option Bytes := do
  let line ← line
  if line.getLast? = some newline ∧ key.isPrefixOf line then some ((line.dropLast).drop key.length) else none

def tagTarget (format : ObjectFormat) (payload : Bytes) : Option (ObjectId × ObjectKind) := do
  let lines := splitInclusive newline payload
  let targetField ← requiredLine (ascii "object ") lines[0]?
  let target ← if targetField.length = format.digestLen * 2
    then hexBytes targetField >>= ObjectId.fromBytes format else none
  let kind ← requiredLine (ascii "type ") lines[1]? >>= kindOf
  let _ ← requiredLine (ascii "tag ") lines[2]?
  pure (target, kind)

inductive Peel where
  | known (target : Option ObjectId)
  | missing
  | tagTargetMissing

/-- Follows annotated tags. Failures other than a missing object end the run that asked. -/
def peelFrom {digests : Digests} {format : ObjectFormat} (objects : Objects digests format) :
    Nat → List ObjectId → Option ObjectKind → ObjectId → Option Peel
  | maxTags, tags, expected, id =>
    if id ∈ tags then none
    else
      match objects.read id with
      | none => some (if tags = [] then .missing else .tagTargetMissing)
      | some (kind, data) =>
        if expected.any (fun claimed => claimed ≠ kind) then none
        else if kind ≠ .tag then some (.known (if tags = [] then none else some id))
        else
          match maxTags with
          | 0 => none
          | maxTags + 1 =>
            match tagTarget format data with
            | none => none
            | some (target, claimed) => peelFrom objects maxTags (tags ++ [id]) (some claimed) target

def peel {digests : Digests} {format : ObjectFormat} (objects : Objects digests format) (maxTags : Nat)
    (id : ObjectId) : Option Peel :=
  peelFrom objects maxTags [] none id

inductive PackScope where
  | tags
  | all
  deriving DecidableEq

structure Candidate where
  name : RefName
  id : ObjectId
  deriving DecidableEq

def PackScope.selects (scope : PackScope) (name : RefName) : Bool :=
  !name.perWorktree && (scope = .all || (ascii "refs/tags/").isPrefixOf name.bytes)

abbrev Candidates := OrdMap Bytes Candidate

inductive Owner where
  | packer
  | writer (index : Nat)
  deriving DecidableEq

/-- How far a packing run is. From `locked` on it holds the lock of the packed file; while it looks
at one candidate again it holds the lock of that name, too. -/
inductive Packer where
  | idle
  | locked
  | walking (existing : Packed) (candidates : Candidates)
  | pruning (pending : List Candidate)
  | rechecking (candidate : Candidate) (pending : List Candidate)
  | removing (candidate : Candidate) (pending : List Candidate)

structure World where
  store : Store
  packedLock : Option Owner
  locks : RefName → Option Owner
  packer : Packer

namespace World

def change (world : World) (change : Change) : World := { world with store := change.run world.store }

/-- The end of a packing run, wherever it is: its locks are given up. -/
def stop (world : World) : World :=
  { world with
    packedLock := if world.packedLock = some .packer then none else world.packedLock
    locks := fun name => if world.locks name = some .packer then none else world.locks name
    packer := .idle }

end World

end Girt.Refs.Files
