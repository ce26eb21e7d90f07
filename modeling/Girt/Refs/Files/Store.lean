import Mathlib.Data.List.DropRight
import Girt.Refs.Files.Packed
import Girt.Refs.Reftable.Backend

/-!
# Loose and packed references

A reference is a file of its own, or a record of the packed file. The loose file hides the record.
-/

namespace Girt.Refs.Files
open ByteLib Pieces

structure References where
  format : ObjectFormat
  gitDir : Path
  commonDir : Path

@[ext] structure Store where
  packed : Option Bytes
  loose : RefName → Option Bytes
  logs : RefName → Option Bytes

variable (refs : References) (store : Store)

namespace References

variable (refs : References)

def root (name : RefName) : Path := if name.perWorktree then refs.gitDir else refs.commonDir

def path (name : RefName) : Path := refs.root name ++ ascii "/" ++ name.bytes

def reflogPath (name : RefName) : Path := refs.root name ++ ascii "/logs/" ++ name.bytes

def packedPath : Path := refs.commonDir ++ ascii "/packed-refs"

end References

def trimAsciiEnd (bytes : Bytes) : Bytes := bytes.rdropWhile Signature.isAsciiWhitespace

def symbolicStart : Bytes := ascii "ref: "

def parseLoose (format : ObjectFormat) (bytes : Bytes) (path : Path) : Except ReferenceError Target :=
  if symbolicStart.isPrefixOf (trimAsciiEnd bytes) then
    match RefName.new ((trimAsciiEnd bytes).drop symbolicStart.length) with
    | none => .error (.malformed path "invalid symbolic target")
    | some name => .ok (.symbolic name)
  else
    match parseId format (trimAsciiEnd bytes) path with
    | .error error => .error error
    | .ok id => .ok (.direct id)

def targetBytes : Target → Bytes
  | .direct id => idText id ++ [newline]
  | .symbolic name => symbolicStart ++ name.bytes ++ [newline]

structure Snapshot where
  bytes : Bytes
  records : Packed

def loadPacked : Except ReferenceError Snapshot := do
  let bytes := store.packed.getD []
  let records ← parsePacked refs.format bytes refs.packedPath
  pure ⟨bytes, records⟩

def readLoose (name : RefName) : Except ReferenceError (Option Target) :=
  match store.loose name with
  | none => .ok none
  | some bytes =>
    match parseLoose refs.format bytes (refs.path name) with
    | .error error => .error error
    | .ok target => .ok (some target)

def Packed.target (packed : Packed) (name : RefName) : Option Target :=
  (packed.get name.bytes).map (fun record => .direct record.target)

/-- The stored value of a name, whose path is not checked here. -/
def read (name : RefName) : Except ReferenceError (Option Target) := do
  match ← readLoose refs store name with
  | some target => pure (some target)
  | none =>
    if name.perWorktree then pure none
    else
      let packed ← loadPacked refs store
      pure (Packed.target packed.records name)

/-- The names on the path to a name, nearest first. -/
def ancestors (name : RefName) : List RefName :=
  ((List.range name.bytes.length).reverse.filter (fun index => name.bytes[index]? = some Reftable.slash)).filterMap
    (fun index => RefName.new (name.bytes.take index))

/-- Refuses a path that is a directory of the file system, and one that lies below a loose file. -/
def checkPath (directory : RefName → Bool) (name : RefName) : Except ReferenceError Unit := do
  reject (directory name) (.conflict (refs.path name))
  match (ancestors name).find? (fun other => refs.root other = refs.root name ∧ (store.loose other).isSome) with
  | none => pure ()
  | some other => .error (.conflict (refs.path other))

def readChecked (directory : RefName → Bool) (name : RefName) : Except ReferenceError (Option Target) := do
  checkPath refs store directory name
  read refs store name

/-- The stored value of a name given the packed records that its reader holds. -/
def readLocked (packed : Packed) (name : RefName) : Except ReferenceError (Option Target) := do
  match ← readLoose refs store name with
  | some target => pure (some target)
  | none => pure (if name.perWorktree then none else Packed.target packed name)

def link (name : RefName) : Option RefName :=
  match read refs store name with
  | .ok (some (.symbolic next)) => some next
  | _ => none

def packedConflict (name : RefName) (packed : Packed) : Bool :=
  Reftable.hasAncestor packed name.bytes || Reftable.hasDescendant packed name.bytes

def checkPackedNamespace (packed : Packed) (name : RefName) : Except ReferenceError Unit :=
  reject (name.perWorktree = false ∧ packedConflict name packed = true) (.conflict (refs.path name))

/-- Whether one name is a directory on the path of the other. -/
def conflicts (a b : Bytes) : Bool :=
  (b ++ [Reftable.slash]).isPrefixOf a || (a ++ [Reftable.slash]).isPrefixOf b

/-- A change to the files that takes place as a whole. -/
inductive Change where
  | replacePacked (bytes : Bytes)
  | writeLoose (name : RefName) (bytes : Bytes)
  | removeLoose (name : RefName)
  | appendLog (name : RefName) (bytes : Bytes)
  | removeLog (name : RefName)

def Change.run : Change → Store → Store
  | replacePacked bytes, store => { store with packed := some bytes }
  | writeLoose name bytes, store => { store with loose := Function.update store.loose name (some bytes) }
  | removeLoose name, store => { store with loose := Function.update store.loose name none }
  | appendLog name bytes, store =>
    { store with logs := Function.update store.logs name (some ((store.logs name).getD [] ++ bytes)) }
  | removeLog name, store => { store with logs := Function.update store.logs name none }

/-- What the file system does instead of a change: nothing at all because a check before it
failed, or part of it. Only an append has parts that stay. -/
inductive Fault where
  | refused (source : ReferenceError)
  | interrupted (written : Nat)

def removeError (path : Path) (packedChanged : Bool) : Fault → ReferenceError
  | .refused source => source
  | .interrupted _ => if packedChanged then .packedDeleted path else .io path

def replaceError (path : Path) : Fault → ReferenceError
  | .refused source => source
  | .interrupted _ => .io path

end Girt.Refs.Files
