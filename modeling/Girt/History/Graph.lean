import Girt.Objects.Store

/-!
# Commit history

A query explores the parents of commits from its roots on, from an attached commit-graph where that
has the commit and from commit objects elsewhere. Grafts replace parents and shallow commits have
none.
-/

namespace Girt.History
open ByteLib

inductive HistoryError where
  | read (id : ObjectId) (source : ObjectReadError)
  | missing (id : ObjectId)
  | notCommit (id : ObjectId)
  | parse (id : ObjectId) (source : CommitError)
  | limit (resource : String)
  | cycle
  deriving DecidableEq

structure HistoryLimits where
  maxCommits : Nat
  maxParents : Nat

/-- A commit-graph: its commits with their parents. -/
structure CommitGraph where
  commits : List (ObjectId × List ObjectId)

def CommitGraph.parents (graph : CommitGraph) (id : ObjectId) : Option (List ObjectId) :=
  (graph.commits.find? (·.1 = id)).map Prod.snd

/-- What a query reads: `read` is what reading an object gives once replacements are followed. -/
structure CommitObjects where
  format : ObjectFormat
  commitGraph : Option CommitGraph
  read : ObjectId → Except ObjectReadError (Option Object)
  graft : ObjectId → Option (List ObjectId)
  shallowRoots : List ObjectId

namespace CommitObjects

/-- The parents that a commit object has; a graft on the requested commit wins over them. -/
def storedParents (objects : CommitObjects) (id : ObjectId) : Except HistoryError (List ObjectId) := do
  match ← wrapError (.read id) (objects.read id) with
  | none => .error (.missing id)
  | some object =>
    reject (object.kind ≠ .commit) (.notCommit id)
    let commit ← wrapError (.parse id) (Commit.parse objects.format object.data)
    .ok ((objects.graft id).getD commit.parents)

def verifiedParents (objects : CommitObjects) (id : ObjectId) : Except HistoryError (List ObjectId) :=
  match objects.commitGraph.bind (·.parents id) with
  | some parents => .ok parents
  | none => objects.storedParents id

def cut (objects : CommitObjects) (id : ObjectId) (parents : List ObjectId) : List ObjectId :=
  if id ∈ objects.shallowRoots then [] else parents

end CommitObjects

/-- The commits that were explored with their parents, in the order of discovery, and those that were
discovered after them. -/
structure Graph where
  nodes : List (ObjectId × List ObjectId)
  pending : List ObjectId

namespace Graph

def ids (graph : Graph) : List ObjectId := graph.nodes.map Prod.fst ++ graph.pending

def parents (graph : Graph) (id : ObjectId) : List ObjectId := ((graph.nodes.find? (·.1 = id)).map Prod.snd).getD []

def discover (limit : Nat) (graph : Graph) (id : ObjectId) : Except HistoryError Graph :=
  if id ∈ graph.ids then .ok graph
  else if graph.ids.length = limit then .error (.limit "commits")
  else .ok { graph with pending := graph.pending ++ [id] }

/-- Explores the discovered commits in turn. The commit to stop at is read, but neither its parents nor
those of the commits after it belong to the query. -/
def explore (objects : CommitObjects) (limit : Nat) (stop : Option ObjectId) :
    Nat → Nat → Graph → Except HistoryError Graph
  | fuel + 1, remaining, ⟨nodes, id :: pending⟩ => do
    let parents ← objects.verifiedParents id
    if stop = some id then .ok ⟨nodes ++ (id :: pending).map fun id => (id, []), []⟩
    else
      let parents := objects.cut id parents
      reject (remaining < parents.length) (.limit "parent occurrences")
      let graph ← parents.foldlM (discover limit) ⟨nodes ++ [(id, parents)], pending⟩
      explore objects limit stop fuel (remaining - parents.length) graph
  | _, _, graph => .ok graph

/-- Takes one edge to a parent out of the count of its children. -/
def release (state : (ObjectId → Nat) × List ObjectId) (parent : ObjectId) : (ObjectId → Nat) × List ObjectId :=
  let left := state.1 parent - 1
  (Function.update state.1 parent left, if left = 0 then state.2 ++ [parent] else state.2)

def drain (graph : Graph) : Nat → (ObjectId → Nat) → List ObjectId → Nat → Nat
  | fuel + 1, children, id :: ready, visited =>
    let state := (graph.parents id).foldl release (children, ready)
    drain graph fuel state.1 state.2 (visited + 1)
  | _, _, _, visited => visited

def checkAcyclic (graph : Graph) : Except HistoryError Unit :=
  let children := fun id => (graph.ids.flatMap graph.parents).count id
  let ready := graph.ids.filter (children · = 0)
  reject (graph.drain graph.ids.length children ready 0 ≠ graph.ids.length) .cycle

def exploreRoots (objects : CommitObjects) (roots : List ObjectId) (limits : HistoryLimits)
    (stop : Option ObjectId) :
    Except HistoryError Graph := do
  let graph ← roots.foldlM (discover limits.maxCommits) ⟨[], []⟩
  explore objects limits.maxCommits stop limits.maxCommits limits.maxParents graph

def readUntil (objects : CommitObjects) (roots : List ObjectId) (limits : HistoryLimits) (stop : Option ObjectId) :
    Except HistoryError Graph := do
  let graph ← exploreRoots objects roots limits stop
  graph.checkAcyclic
  .ok graph

def mark (state : List ObjectId × List ObjectId) (parent : ObjectId) : List ObjectId × List ObjectId :=
  if parent ∈ state.1 then state else (parent :: state.1, parent :: state.2)

def markFrom (graph : Graph) : Nat → List ObjectId × List ObjectId → List ObjectId
  | fuel + 1, (marks, id :: pending) => markFrom graph fuel ((graph.parents id).foldl mark (marks, pending))
  | _, (marks, _) => marks

def reachable (graph : Graph) (root : ObjectId) : List ObjectId := graph.markFrom graph.ids.length ([root], [root])

end Graph

def mergeBases (objects : CommitObjects) (left right : ObjectId) (limits : HistoryLimits) :
    Except HistoryError (List ObjectId) := do
  let graph ← Graph.readUntil objects [left, right] limits none
  let common := graph.ids.filter fun id => id ∈ graph.reachable left ∧ id ∈ graph.reachable right
  let dominated := common.flatMap graph.parents
  .ok ((common.filter (· ∉ dominated)).mergeSort (· ≤ ·))

end Girt.History
