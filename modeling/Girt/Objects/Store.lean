import Girt.Objects.Edges

/-!
# Object stores

An object directory has packs and loose files. A reader looks in the packs first and falls back to
other copies of an object when one of them is damaged.
-/

namespace Girt
open ByteLib Refs.Files

inductive ObjectReadError where
  | damaged
  | limit
  | io
  | cancelled
  | objectFormat
  deriving DecidableEq

/-- A stored copy of an object: what its header says, without its contents, and what reading it
under the limits in use gives. -/
structure Copy where
  header : Except ObjectReadError (ObjectKind × Nat)
  body : Except ObjectReadError Object

/-- A pack with its index, by the name that both files share. -/
structure FilePack where
  stem : Bytes
  entries : List (ObjectId × Copy)

namespace FilePack

def find (pack : FilePack) (id : ObjectId) : Option Copy := (pack.entries.find? (·.1 = id)).map Prod.snd

def identities (pack : FilePack) : List ObjectId := pack.entries.map Prod.fst

end FilePack

structure LooseFile where
  name : Bytes
  regular : Bool
  len : Nat
  modified : Int
  copy : Copy

/-- A file of the pack directory, with its name split at the last dot. -/
structure PackFile where
  stem : Bytes
  extension : Option Bytes
  regular : Bool
  modified : Int

inductive DirEntry where
  | pack (isDir : Bool) (files : List PackFile)
  | other (name : Bytes) (isDir : Bool) (files : List LooseFile)

structure Store where
  entries : List DirEntry
  packs : List FilePack

abbrev LoosePath := Bytes × Bytes

namespace DirEntry

def filesOf (name : Bytes) : DirEntry → List LooseFile
  | .other own true files => if own = name then files else []
  | _ => []

def packFiles : DirEntry → List PackFile
  | .pack _ files => files
  | .other _ _ _ => []

def removeFile (path : LoosePath) : DirEntry → DirEntry
  | .other name isDir files => .other name isDir (if name = path.1 then files.filter (·.name ≠ path.2) else files)
  | entry => entry

end DirEntry

namespace Store

def fileAt (store : Store) (path : LoosePath) : Option LooseFile :=
  (store.entries.flatMap (DirEntry.filesOf path.1)).find? (·.name = path.2)

def loosePath (id : ObjectId) : LoosePath := ((idText id).take 2, (idText id).drop 2)

def looseCopy (store : Store) (id : ObjectId) : Option Copy := (store.fileAt (loosePath id)).map LooseFile.copy

def packFiles (store : Store) : List PackFile := store.entries.flatMap DirEntry.packFiles

def removeFile (store : Store) (path : LoosePath) : Store :=
  { store with entries := store.entries.map (DirEntry.removeFile path) }

end Store

/-- The stores that a reader has pinned, the repository's own one first. The last fields are what
checking the pinned files gives. -/
structure Objects where
  format : ObjectFormat
  emptyTree : ObjectId
  primary : Store
  alternates : List Store
  partialClone : Bool
  promised : Except ObjectReadError (List ObjectId)
  indexes : Except ObjectReadError Unit
  checksums : Except ObjectReadError Unit
  unchanged : Except ObjectReadError Unit
  blobKinds : (ObjectId → Bool) → Except ObjectReadError Unit

namespace Objects

variable (objects : Objects)

def stores : List Store := objects.primary :: objects.alternates

/-- Reads the packed copies of a store; damage is remembered and the next copy is tried. -/
def readPacks (id : ObjectId) (damage : Option ObjectReadError) :
    List FilePack → Except ObjectReadError (Option Object × Option ObjectReadError)
  | [] => .ok (none, damage)
  | pack :: packs =>
    match pack.find id with
    | none => readPacks id damage packs
    | some copy =>
      match copy.body with
      | .ok object => .ok (some object, damage)
      | .error .damaged => readPacks id (damage.or (some .damaged)) packs
      | .error error => .error error

def readStores (objects : Objects) (id : ObjectId) (damage : Option ObjectReadError) :
    List Store → Except ObjectReadError (Option Object)
  | [] =>
    match damage with
    | some error => .error error
    | none => .ok (if id = objects.emptyTree then some ⟨.tree, []⟩ else none)
  | store :: stores => do
    let (packed, damage) ← readPacks id damage store.packs
    match packed with
    | some object => .ok (some object)
    | none =>
      match store.looseCopy id with
      | none => readStores objects id damage stores
      | some copy =>
        match copy.body with
        | .ok object => .ok (some object)
        -- a damaged loose file is passed over only after a damaged pack
        | .error .damaged => if damage.isSome then readStores objects id damage stores else .error .damaged
        | .error error => .error error

def read (id : ObjectId) : Except ObjectReadError (Option Object) :=
  objects.readStores id none objects.stores

def locateStores (objects : Objects) (id : ObjectId) :
    List Store → Except ObjectReadError (Option (ObjectKind × Nat))
  | [] => .ok (if id = objects.emptyTree then some (.tree, 0) else none)
  | store :: stores =>
    match store.packs.findSome? (·.find id) with
    | some copy => copy.header.map some
    | none =>
      match store.looseCopy id with
      | some copy => copy.header.map some
      | none => locateStores objects id stores

def locate (id : ObjectId) : Except ObjectReadError (Option (ObjectKind × Nat)) := do
  reject (id.format ≠ objects.format) ObjectReadError.objectFormat
  objects.locateStores id objects.stores

/-- Locates many objects; the order of the results does not matter to its callers. -/
def locateAll (ids : List ObjectId) :
    Except ObjectReadError (List (ObjectId × Option (ObjectKind × Nat))) :=
  ids.mapM fun id => (objects.locate id).map fun located => (id, located)

/-- Identities name contents: every copy under an identity, and what its header says, is of the one
object with that identity. -/
structure Identified (contents : ObjectId → Option Object) (objects : Objects) : Prop where
  emptyTree : contents objects.emptyTree = some ⟨.tree, []⟩
  packed : ∀ store ∈ objects.stores, ∀ pack ∈ store.packs, ∀ id copy, pack.find id = some copy →
    (∀ object, copy.body = .ok object → contents id = some object) ∧
      ∀ kind size, copy.header = .ok (kind, size) → ∃ object, contents id = some object ∧ object.kind = kind
  loose : ∀ store ∈ objects.stores, ∀ id copy, store.looseCopy id = some copy →
    (∀ object, copy.body = .ok object → contents id = some object) ∧
      ∀ kind size, copy.header = .ok (kind, size) → ∃ object, contents id = some object ∧ object.kind = kind

end Objects

end Girt
