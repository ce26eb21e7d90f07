import Girt.Objects.Store

/-!
# Walking the objects that are retained

A breadth-first walk over the typed graph of objects. Each identity is queued once, when it is first
named. Graph objects are read for their edges; blobs are located after the walk.
-/

namespace Girt.Retention
open ByteLib

inductive PartialClonePolicy where
  | refuse
  | promised
  deriving DecidableEq

/-- The cutoffs of a reflog: for all its records, and for those that nothing else keeps. -/
structure ReflogCutoffs where
  general : Option Int
  unreachable : Option Int

inductive MalformedError where
  | commit (error : CommitError)
  | tree (error : TreeError)
  | tag (error : TagError)
  | id

inductive RetentionError where
  | read (error : ObjectReadError)
  | missingObject (id : ObjectId)
  | wrongObjectKind (id : ObjectId)
  | conflictingObjectKind (id : ObjectId)
  | nullEdge (id : ObjectId)
  | malformed (error : MalformedError)
  | reachableObjectLimit
  | reachableByteOverflow
  | reachableByteLimit
  | reachableEdgeLimit
  | promisedObjectLimit
  | promisedBoundaryLimit
  | cancelled
  | partialClone
  | invalidCallerHead
  | callerHeadLimit
  | reflogExpiry
  | missingProtectedIndex
  | missingProtectedObject
  | protectedPackedObjectLimit
  | objectDirectoryEntryLimit
  | nonDirectoryObjectEntry
  | nonDirectoryObjectFanout
  | nonUtf8ObjectFanout
  | unknownObjectDirectoryEntry
  | packEntryLimit
  | nonFilePackEntry (stem : Bytes)
  | looseObjectEntryLimit
  | nonFileLooseObject
  | nonUtf8LooseObject
  | retentionInputsChanged

inductive ReflogExpiryPolicy where
  | keepAll
  | classifiedCutoffs (liveBefore disconnectedBefore : Option Int)
  | configured (cutoffs : Bytes → Except RetentionError ReflogCutoffs)

structure RetentionPolicy where
  heads : List ObjectId
  recentCutoff : Option Int
  reflogExpiry : ReflogExpiryPolicy
  maxEntries : Nat
  maxEdges : Nat
  maxBytes : Nat
  partialClone : PartialClonePolicy
  maxPromisedBoundaries : Nat

/-- A repository: its objects and the commits where its history is cut. -/
structure Repository where
  objects : Objects
  shallowRoots : List ObjectId

structure ObjectInfo where
  kind : ObjectKind
  size : Nat
  deriving DecidableEq

abbrev IdSet := OrdMap ObjectId Unit

section Visit

structure Visit where
  kind : ObjectKind
  size : Nat
  edges : List (ObjectId × ObjectKind)
  malformed : Option RetentionError

/-- The edges of tree entries, until there are more than the walk accepts. -/
def collectEdges (maxEdges : Nat) (error : Option TreeError) (edges : List (ObjectId × ObjectKind)) :
    List RawEntry → List (ObjectId × ObjectKind) × Option RetentionError
  | [] => (edges, if edges.length ≤ maxEdges then error.map fun error => .malformed (.tree error) else none)
  | entry :: entries =>
    if edges.length ≤ maxEdges then collectEdges maxEdges error (edges ++ entry.edge.toList) entries
    else (edges, none)

/-- The edges of an object and the error that stopped their collection. -/
def visitEdges (repo : Repository) (policy : RetentionPolicy) (id : ObjectId) (object : Object) :
    List (ObjectId × ObjectKind) × Option RetentionError :=
  if object.kind ≠ .blob ∧ policy.maxBytes < object.data.length then ([], none)
  else
    match object.kind with
    | .blob => ([], none)
    | .commit =>
      match Commit.parse repo.objects.format object.data with
      | .error error => ([], some (.malformed (.commit error)))
      | .ok commit =>
        ((commit.tree, .tree) :: if id ∈ repo.shallowRoots then []
          else (commit.parents.map fun parent => (parent, .commit)).take policy.maxEdges, none)
    | .tree =>
      let entries := rawEntries repo.objects.format object.data
      collectEdges policy.maxEdges entries.2 [] entries.1
    | .tag =>
      match Tag.parseTarget repo.objects.format object.data with
      | .error error => ([], some (.malformed (.tag error)))
      | .ok edge => ([edge], none)

/-- Reads an object and its edges, independently of the state of the walk. -/
def visit (repo : Repository) (policy : RetentionPolicy) (id : ObjectId) : Except RetentionError Visit :=
  match repo.objects.read id with
  | .error error => .error (.read error)
  | .ok none => .error (.missingObject id)
  | .ok (some object) =>
    let edges := visitEdges repo policy id object
    .ok ⟨object.kind, object.data.length, edges.1, edges.2⟩

end Visit

section Boundaries

/-- Promised objects where the walks of one plan stop. -/
structure Boundaries where
  enabled : Bool
  found : OrdMap ObjectId ObjectKind

def Boundaries.new (policy : RetentionPolicy) (objects : Objects) : Boundaries :=
  ⟨policy.partialClone = .promised && objects.partialClone, .empty⟩

def promisedError : ObjectReadError → RetentionError
  | .cancelled => .cancelled
  | .limit => .promisedObjectLimit
  | error => .read error

/-- Records a missing object as a boundary when it is a promised tree or blob. -/
def Boundaries.admit (boundaries : Boundaries) (objects : Objects) (policy : RetentionPolicy) (id : ObjectId)
    (expected : Option ObjectKind) : Except RetentionError Boundaries :=
  match expected with
  | none | some .commit | some .tag => .error (.missingObject id)
  | some kind =>
    if boundaries.enabled = false then .error (.missingObject id)
    else
      match objects.promised with
      | .error error => .error (promisedError error)
      | .ok promised =>
        if id ∉ promised then .error (.missingObject id)
        else if boundaries.found.contains id = false ∧ policy.maxPromisedBoundaries ≤ boundaries.found.entries.length then
          .error .promisedBoundaryLimit
        else .ok { boundaries with found := boundaries.found.insert id kind }

end Boundaries

section Walk

/-- What the walk knows about an identity it has queued: the kind that an edge asserts, and the kind
of the copy that was read. -/
structure Node where
  expected : Option ObjectKind
  actual : Option ObjectKind

structure Walk where
  queue : List (ObjectId × Bool)
  nodes : OrdMap ObjectId Node
  bytes : Nat
  edges : Nat
  blobs : List ObjectId
  missing : IdSet
  objectInfo : OrdMap ObjectId ObjectInfo
  boundaries : Boundaries

variable (repo : Repository) (policy : RetentionPolicy) (roots : IdSet)

def Walk.start (objectInfo : OrdMap ObjectId ObjectInfo) (boundaries : Boundaries) : Walk where
  queue := roots.entries.map fun root => (root.1, true)
  nodes := OrdMap.insertAll .empty (roots.entries.map fun root => (root.1, ⟨none, none⟩))
  bytes := 0
  edges := 0
  blobs := []
  missing := .empty
  objectInfo := objectInfo
  boundaries := boundaries

/-- Checks one edge and queues its target when it is new. -/
def addEdge (id : ObjectId) (walk : Walk) (edge : ObjectId × ObjectKind) : Except RetentionError Walk := do
  reject (policy.maxEdges < walk.edges + 1) RetentionError.reachableEdgeLimit
  reject (edge.1.isNull = true) (RetentionError.nullEdge id)
  match walk.nodes.get edge.1 with
  | some node =>
    reject (∃ actual ∈ node.actual, actual ≠ edge.2) (RetentionError.wrongObjectKind edge.1)
    reject (∃ expected ∈ node.expected, expected ≠ edge.2) (RetentionError.conflictingObjectKind edge.1)
    return { walk with
      edges := walk.edges + 1
      nodes := walk.nodes.insert edge.1 { node with expected := some edge.2 } }
  | none =>
    return { walk with
      edges := walk.edges + 1
      nodes := walk.nodes.insert edge.1 ⟨some edge.2, none⟩
      -- a blob that is also a root is read, since the root asserts no kind
      queue := walk.queue ++ [(edge.1, edge.2 ≠ .blob || roots.contains edge.1)] }

def expectedKind (walk : Walk) (id : ObjectId) : Option ObjectKind := (walk.nodes.get id).bind Node.expected

def recordRead (walk : Walk) (id : ObjectId) (read : Visit) : Walk :=
  { walk with
    nodes := match walk.nodes.get id with
      | some node => walk.nodes.insert id { node with actual := some read.kind }
      | none => walk.nodes
    objectInfo := walk.objectInfo.insert id ⟨read.kind, read.size⟩ }

def enter (id : ObjectId) (walk : Walk) (read : Visit) : Except RetentionError Walk := do
  reject (∃ expected ∈ expectedKind walk id, expected ≠ read.kind) (RetentionError.wrongObjectKind id)
  if read.kind = .blob then return recordRead walk id read
  else
    reject (2 ^ 64 ≤ walk.bytes + read.size) RetentionError.reachableByteOverflow
    reject (policy.maxBytes < walk.bytes + read.size) RetentionError.reachableByteLimit
    let added ← read.edges.foldlM (addEdge policy roots id)
      { recordRead walk id read with bytes := walk.bytes + read.size }
    match read.malformed with
    | some error => .error error
    | none => return added

def next (walk : Walk) (id : ObjectId) (read : Bool) (queue : List (ObjectId × Bool)) :
    Except RetentionError Walk :=
  if read = false then .ok { walk with queue := queue, blobs := walk.blobs ++ [id] }
  else
    match visit repo policy id with
    | .error (.missingObject absent) =>
      if absent = id ∧ roots.contains id = false then do
        let boundaries ← walk.boundaries.admit repo.objects policy id (expectedKind walk id)
        return { walk with queue := queue, missing := walk.missing.insert id (), boundaries := boundaries }
      else .error (.missingObject absent)
    | .error error => .error error
    | .ok read => enter policy roots id { walk with queue := queue } read

/-- The walk, with the number of identities that it may still visit. -/
def walkWith : Nat → Walk → Except RetentionError Walk
  | 0, walk => if walk.queue = [] then .ok walk else .error .reachableObjectLimit
  | remaining + 1, walk =>
    match walk.queue with
    | [] => .ok walk
    | (id, read) :: queue => do
      let walk ← next repo policy roots walk id read queue
      walkWith remaining walk

/-- Checks a blob that was located after the walk. -/
def enterBlob (walk : Walk) (located : ObjectId × Option (ObjectKind × Nat)) : Except RetentionError Walk :=
  match located.2 with
  | none => do
    let boundaries ← walk.boundaries.admit repo.objects policy located.1 (some .blob)
    return { walk with missing := walk.missing.insert located.1 (), boundaries := boundaries }
  | some (kind, size) => do
    reject (kind ≠ .blob) (RetentionError.wrongObjectKind located.1)
    return { walk with objectInfo := walk.objectInfo.insert located.1 ⟨kind, size⟩ }

structure Walked where
  reachable : IdSet
  objectInfo : OrdMap ObjectId ObjectInfo
  boundaries : Boundaries

def walk (objectInfo : OrdMap ObjectId ObjectInfo) (boundaries : Boundaries) : Except RetentionError Walked := do
  let walked ← walkWith repo policy roots policy.maxEntries (Walk.start roots objectInfo boundaries)
  let located ← wrapError RetentionError.read (repo.objects.locateAll walked.blobs)
  let walked ← located.foldlM (enterBlob repo policy) walked
  return {
    reachable := OrdMap.insertAll .empty ((walked.nodes.entries.filter fun node => ! walked.missing.contains node.1).map
      fun node => (node.1, ()))
    objectInfo := walked.objectInfo
    boundaries := walked.boundaries }

end Walk

end Girt.Retention
