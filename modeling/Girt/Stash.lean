import Girt.Index.Edit

/-!
# Applying a stash

The saved changes are merged onto the current index, and the untracked files of the stash must not
meet a tracked path or one that the caller found occupied.
-/

namespace Girt.Stash
open ByteLib Girt.IndexFile

inductive Error where
  | readTree
  | merge
  | preparation (source : IndexFile.Error)
  | index (source : IndexFile.Error)
  | limit
  | untrackedCollision (path : Bytes)

structure Leaf where
  path : Bytes
  mode : Mode
  id : ObjectId

def Leaf.entry (leaf : Leaf) : Entry :=
  ⟨leaf.path, leaf.mode, leaf.id, .normal, false, false, false, ⟨⟨0, 0⟩, ⟨0, 0⟩, 0, 0, 0, 0, 0⟩⟩

/-- A merged tree with what reading its files gives and the stages of each conflict. -/
structure TreeMerge where
  tree : ObjectId
  leaves : Except Error (List Leaf)
  conflicts : List (List Entry)

def TreeMerge.isClean (merge : TreeMerge) : Bool := merge.conflicts.isEmpty

/-- The stored trees, and the merge of two trees over a base: it keeps the trees it makes in a memory. -/
structure Objects (Memory : Type) where
  format : ObjectFormat
  empty : ObjectId
  leaves : ObjectId → Except Error (List Leaf)
  merge : Memory → ObjectId → ObjectId → ObjectId → Except Error (TreeMerge × Memory)

structure Snapshot where
  base : ObjectId
  index : ObjectId
  worktree : ObjectId
  untracked : Option ObjectId

structure ApplyInput where
  index : ObjectId
  occupied : List Bytes

structure ApplyOptions where
  restoreIndex : Bool
  limits : Limits

structure Apply where
  tracked : TreeMerge
  indexMerge : Option TreeMerge
  withUntracked : Option TreeMerge
  index : Option Index

/-- The first member of an ordered set at or after a path. -/
def firstFrom (occupied : List Bytes) (path : Bytes) : Option Bytes := (occupied.filter (path ≤ ·)).min?

def collision (occupied : List Bytes) (path : Bytes) : Bool :=
  occupied.contains path || (slashesFrom 0 path).any (fun slash => occupied.contains (path.take slash)) ||
    (firstFrom occupied path).any fun next => (path ++ [47]).isPrefixOf next

section Apply

variable {Memory : Type} (objects : Objects Memory) (saved : Snapshot) (input : ApplyInput)
  (options : ApplyOptions)

def clean (tree : ObjectId) : TreeMerge := ⟨tree, objects.leaves tree, []⟩

def draft (merge : TreeMerge) : Except Error Index := do
  let leaves ← merge.leaves
  let staged := merge.conflicts.flatten
  let kept := leaves.filter fun leaf => leaf.path ∉ staged.map Entry.path
  wrapError .preparation (Index.new objects.format (staged ++ kept.map Leaf.entry) options.limits)

def checkUntracked (current : Index) : Except Error Unit := do
  reject (input.occupied.length > options.limits.maxEntries ∨
    (∃ path ∈ input.occupied, path.length > options.limits.maxPathBytes) ∨
    min (input.occupied.map List.length).sum usizeMax > options.limits.maxBytes) .limit
  match saved.untracked with
  | none => .ok ()
  | some tree =>
    let files ← draft objects options (clean objects tree)
    let occupied := current.entries.map Entry.path ++ input.occupied
    match files.entries.find? fun entry => collision occupied entry.path with
    | some entry => .error (.untrackedCollision entry.path)
    | none => .ok ()

/-- The current entries with the paths that the merge added in the place of those they collide with. -/
def stageAdditions (current merged : Index) : Except Error Index :=
  let existing := current.entries.map Entry.path
  let additions := (merged.entries.filter fun entry => entry.path ∉ existing).map Entry.path
  wrapError .index (Index.new objects.format
    (current.entries.filter (fun entry => !collision additions entry.path) ++
      merged.entries.filter (fun entry => additions.contains entry.path)) options.limits)

/-- The saved change of the index on the current one, when it is asked for. -/
def mergeIndex (memory : Memory) : Except Error (Option TreeMerge × Memory) :=
  if options.restoreIndex then do
    let (merge, memory) ← objects.merge memory saved.base input.index saved.index
    .ok (some merge, memory)
  else .ok (none, memory)

def finalIndex (current : Index) (indexMerge : Option TreeMerge) (tracked : TreeMerge) : Except Error Index :=
  if !tracked.isClean then draft objects options tracked
  else match indexMerge with
    | some merge => draft objects options merge
    | none => do stageAdditions objects options current (← draft objects options tracked)

def restoreUntracked (tracked : TreeMerge) (memory : Memory) : Except Error (Option TreeMerge) :=
  if tracked.isClean then do
    checkUntracked objects saved input options (← draft objects options tracked)
    match saved.untracked with
    | none => .ok none
    | some tree =>
      let (merge, _) ← objects.merge memory objects.empty tracked.tree tree
      .ok (some merge)
  else .ok none

def applyStash (memory : Memory) : Except Error Apply := do
  let current ← draft objects options (clean objects input.index)
  checkUntracked objects saved input options current
  let (indexMerge, memory) ← mergeIndex objects saved input options memory
  if indexMerge.any (fun merge => !merge.isClean) then
    .ok ⟨clean objects input.index, indexMerge, none, none⟩
  else do
    let (tracked, memory) ← objects.merge memory saved.base input.index saved.worktree
    let index ← finalIndex objects options current indexMerge tracked
    let withUntracked ← restoreUntracked objects saved input options tracked memory
    .ok ⟨tracked, indexMerge, withUntracked, some index⟩

end Apply

end Girt.Stash
