import Girt.Object
import Mathlib.Data.List.Sort
import Mathlib.Data.Prod.Lex

/-!
# Index entries

The records an index holds, and the checks that an entry set passes before an index accepts it.
-/

namespace Girt.IndexFile
open ByteLib

inductive Mode where
  | sparseDirectory
  | regular
  | executable
  | symlink
  | gitlink
  deriving DecidableEq

/-- The on-disk mode words `040000`, `100644`, `100755`, `120000` and `160000`, in octal. -/
def Mode.word : Mode → UInt32
  | sparseDirectory => 16384
  | regular => 33188
  | executable => 33261
  | symlink => 40960
  | gitlink => 57344

def Mode.ofWord (word : UInt32) : Option Mode :=
  [regular, executable, symlink, gitlink, sparseDirectory].find? (fun mode => mode.word = word)

lemma Mode.ofWord_word (mode : Mode) : ofWord mode.word = some mode := by
  cases mode <;> rfl

inductive Stage where
  | normal
  | base
  | ours
  | theirs
  deriving DecidableEq

def Stage.toNat : Stage → Nat
  | normal => 0
  | base => 1
  | ours => 2
  | theirs => 3

def Stage.ofBits : Nat → Stage
  | 0 => normal
  | 1 => base
  | 2 => ours
  | _ => theirs

lemma Stage.ofBits_toNat (stage : Stage) : ofBits stage.toNat = stage := by
  cases stage <;> rfl

lemma Stage.toNat_lt (stage : Stage) : stage.toNat < 4 := by
  cases stage <;> decide

structure Timestamp where
  seconds : UInt32
  nanoseconds : UInt32
  deriving DecidableEq

structure Stat where
  ctime : Timestamp
  mtime : Timestamp
  device : UInt32
  inode : UInt32
  uid : UInt32
  gid : UInt32
  size : UInt32
  deriving DecidableEq

structure Entry where
  path : Bytes
  mode : Mode
  id : ObjectId
  stage : Stage
  assumeValid : Bool
  intentToAdd : Bool
  skipWorktree : Bool
  stat : Stat
  deriving DecidableEq

namespace Entry

def key (entry : Entry) : Bytes ×ₗ Nat := toLex (entry.path, entry.stage.toNat)

def extended (entry : Entry) : Bool := entry.intentToAdd || entry.skipWorktree

end Entry

structure Limits where
  maxBytes : Nat
  maxEntries : Nat
  maxPathBytes : Nat
  maxExtensions : Nat
  machine : maxBytes ≤ usizeMax ∧ maxEntries ≤ usizeMax ∧ maxPathBytes ≤ usizeMax ∧ maxExtensions ≤ usizeMax
  deriving DecidableEq

structure Signature where
  bytes : Bytes
  width : bytes.length = 4
  deriving DecidableEq

namespace Signature

def link : Signature := ⟨ascii "link", rfl⟩

def sdir : Signature := ⟨ascii "sdir", rfl⟩

def tree : Signature := ⟨ascii "TREE", rfl⟩

def reuc : Signature := ⟨ascii "REUC", rfl⟩

def untr : Signature := ⟨ascii "UNTR", rfl⟩

def fsmn : Signature := ⟨ascii "FSMN", rfl⟩

def eoie : Signature := ⟨ascii "EOIE", rfl⟩

def ieot : Signature := ⟨ascii "IEOT", rfl⟩

def optional (signature : Signature) : Bool :=
  signature.bytes.head?.any (fun byte => 65 ≤ byte && byte ≤ 90)

end Signature

inductive Error where
  | objectFormat (expected actual : ObjectFormat)
  | malformed (offset : Nat) (reason : String)
  | checksum
  | version (word : UInt32)
  | entry (position : Nat) (reason : String)
  | sharedRequired (id : ObjectId)
  | mandatoryExtension (signature : Signature)
  | extensionPreventsEdit (signature : Signature)
  | limit (resource : String)
  deriving DecidableEq

def checkCount (actual maximum : Nat) (resource : String) : Except Error Unit :=
  reject (actual > maximum) (.limit resource)

@[simp] lemma checkCount_eq_ok {actual maximum : Nat} {resource : String} {u : Unit} :
    checkCount actual maximum resource = .ok u ↔ actual ≤ maximum := by
  simp [checkCount]

/-- The path whose components are checked: a sparse directory ends with a slash. -/
def leafPath (position : Nat) (entry : Entry) : Except Error Bytes :=
  if entry.mode = .sparseDirectory then do
    reject (!entry.skipWorktree || entry.intentToAdd || entry.stage ≠ .normal)
      (.entry position "invalid sparse directory flags or stage")
    reject (entry.path.getLast? ≠ some 47) (.entry position "sparse directory requires trailing slash")
    .ok entry.path.dropLast
  else .ok entry.path

def forbiddenComponents : List Bytes := [[], ascii ".", ascii "..", ascii ".git"]

def invalidPath (path : Bytes) : Bool :=
  path.contains 0 || (path.splitOn 47).any (fun part => forbiddenComponents.contains part)

def checkOrder (position : Nat) (previous : Option Entry) (entry : Entry) : Except Error Unit :=
  match previous with
  | none => .ok ()
  | some previous => do
    reject (entry.key ≤ previous.key) (.entry position "unsorted or duplicate path/stage")
    reject (previous.path = entry.path ∧ previous.stage = .normal)
      (.entry position "normal entry mixed with conflict stages")

def checkEntry (format : ObjectFormat) (limits : Limits) (position : Nat) (previous : Option Entry)
    (entry : Entry) : Except Error Unit := do
  reject (entry.id.format ≠ format) (.objectFormat format entry.id.format)
  checkCount entry.path.length limits.maxPathBytes "path bytes"
  let path ← leafPath position entry
  reject (invalidPath path) (.entry position "invalid path component or NUL")
  checkOrder position previous entry

def checkEntries (format : ObjectFormat) (limits : Limits) :
    Nat → Option Entry → List Entry → Except Error Unit
  | _, _, [] => .ok ()
  | position, previous, entry :: rest => do
    checkEntry format limits position previous entry
    checkEntries format limits (position + 1) (some entry) rest

def stageBit (stage : Stage) : Nat := 1 <<< stage.toNat

/-- The stages recorded at the exact path of a directory, as a file would be. The entries are
sorted, so the search for the first of them skips the smaller paths. -/
def stagesAt (entries : List Entry) (directory : Bytes) : Nat :=
  ((entries.dropWhile (fun entry => entry.path < directory)).takeWhile (fun entry => entry.path = directory)).foldl
    (fun stages entry => stages ||| stageBit entry.stage) 0

def commonPrefix : Bytes → Bytes → Nat
  | a :: left, b :: right => if a = b then commonPrefix left right + 1 else 0
  | _, _ => 0

def slashesFrom (start : Nat) (path : Bytes) : List Nat :=
  ((path.zipIdx.drop start).filter (fun pair => pair.1 = 47)).map Prod.snd

def collides (stage : Stage) (stages : Nat) : Bool :=
  stages ≠ 0 && ((stages &&& (stageBit stage ||| stageBit .normal)) ≠ 0 || stage = .normal)

/-- The directories above a path with the stages at each, deepest first: those shared with the
previous path are kept, and the entry set is searched for the others. -/
def nextAncestors (entries : List Entry) (previous : Bytes) (ancestors : List (Nat × Nat)) (path : Bytes) :
    List (Nat × Nat) :=
  let kept := ancestors.dropWhile (fun ancestor => commonPrefix previous path ≤ ancestor.1)
  let start := (kept.head?.map (fun ancestor => ancestor.1 + 1)).getD 0
  ((slashesFrom start path).map (fun slash => (slash, stagesAt entries (path.take slash)))).reverse ++ kept

def checkCollisions (entries : List Entry) :
    Nat → Bytes → List (Nat × Nat) → List Entry → Except Error Unit
  | _, _, _, [] => .ok ()
  | position, previous, ancestors, entry :: rest => do
    reject (entry.mode = .sparseDirectory ∧ (rest.head?.any (fun next => entry.path.isPrefixOf next.path)) = true)
      (.entry position "sparse directory overlaps entries")
    let ancestors := nextAncestors entries previous ancestors entry.path
    reject (ancestors.any (fun ancestor => collides entry.stage ancestor.2))
      (.entry position "file/directory collision in a stage")
    checkCollisions entries (position + 1) entry.path ancestors rest

def validateEntries (format : ObjectFormat) (entries : List Entry) (limits : Limits) : Except Error Unit := do
  checkEntries format limits 0 none entries
  checkCollisions entries 0 [] [] entries

end Girt.IndexFile
