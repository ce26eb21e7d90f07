import Girt.Objects.Edges

/-!
# Connectivity of received objects

After a fetch, the typed edges are followed from the selected tips. The trees that were received can be
checked all at once instead: import keeps one table of what their entries name.
-/

namespace Girt.Fetch
open ByteLib

inductive FetchError where
  | missing (id : ObjectId)
  | kind (id : ObjectId)
  | limit
  | commit (id : ObjectId) (error : CommitError)
  | tree (id : ObjectId) (error : TreeError)
  | tag (id : ObjectId) (error : TagError)
  | destination

structure FetchLimits where
  maxConnectivityEdges : Nat

inductive ObjectFilter where
  | blobNone
  | blobLimit (limit : Nat)
  | treeDepth (depth : Nat)
  | objectType (kind : ObjectKind)
  | sparseOid (name : Bytes)
  | combine (parts : List ObjectFilter)

/-- Whether a filter can leave out an object of a kind that an edge names. -/
def ObjectFilter.mayOmit (kind : ObjectKind) (rootTree : Bool) : ObjectFilter → Bool
  | .blobNone | .blobLimit _ | .sparseOid _ => kind = .blob
  | .treeDepth depth =>
    match kind with
    | .blob => true
    | .tree => depth = 0 || ! rootTree
    | .commit | .tag => false
  | .objectType kept => kind ≠ kept
  | .combine parts => parts.attach.any fun part => mayOmit kind rootTree part.1
termination_by filter => sizeOf filter
decreasing_by
  have hsize := List.sizeOf_lt_of_mem part.2
  simp only [ObjectFilter.combine.sizeOf_spec]
  omega

section Edges

def objectEdges (id : ObjectId) (object : Object) : Except FetchError (List (ObjectId × ObjectKind)) :=
  match object.kind with
  | .blob => .ok []
  | .commit =>
    match Commit.parse id.format object.data with
    | .error error => .error (.commit id error)
    | .ok commit => .ok ((commit.tree, .tree) :: commit.parents.map fun parent => (parent, .commit))
  | .tree =>
    -- the whole payload is checked first, so that a malformed tree has no edges
    match (rawEntries id.format object.data).2 with
    | some error => .error (.tree id error)
    | none => .ok ((rawEntries id.format object.data).1.filterMap RawEntry.edge)
  | .tag =>
    match Tag.parseTarget id.format object.data with
    | .error error => .error (.tag id error)
    | .ok edge => .ok [edge]

end Edges

section Received

/-- What import keeps of the structure of an object. -/
inductive Structure where
  | edges (edges : List (ObjectId × ObjectKind))
  | tree
  | malformed

structure TreeTargets where
  kinds : OrdMap ObjectId ObjectKind
  edges : Nat
  unproven : Bool

def TreeTargets.add (targets : TreeTargets) (edge : ObjectId × ObjectKind) : TreeTargets :=
  match targets.kinds.get edge.1 with
  | none => { targets with kinds := targets.kinds.insert edge.1 edge.2 }
  | some kind => if kind ≠ edge.2 then { targets with unproven := true } else targets

structure VerifiedObjects where
  objects : OrdMap ObjectId Structure
  trees : TreeTargets

def VerifiedObjects.record (verified : VerifiedObjects) (received : ObjectId × Object) : VerifiedObjects :=
  match objectEdges received.1 received.2 with
  | .error _ =>
    { objects := verified.objects.insert received.1 .malformed
      trees := if received.2.kind = .tree then { verified.trees with unproven := true } else verified.trees }
  | .ok edges =>
    if received.2.kind = .tree then
      { objects := verified.objects.insert received.1 .tree
        trees := edges.foldl TreeTargets.add { verified.trees with edges := verified.trees.edges + edges.length } }
    else { verified with objects := verified.objects.insert received.1 (.edges edges) }

def VerifiedObjects.empty : VerifiedObjects := ⟨.empty, ⟨.empty, 0, false⟩⟩

/-- The objects of a pack in the order of their import; no two have one identity. The bases that a
thin pack lacks are `appended` from the known objects: import records them, but they do not count as
received. -/
structure ReceivedObjects where
  entries : List (ObjectId × Object)
  appended : ObjectId → Bool
  distinct : (entries.map Prod.fst).Nodup

namespace ReceivedObjects

variable (received : ReceivedObjects)

def imported (id : ObjectId) : Option Object := (received.entries.find? (·.1 = id)).map Prod.snd

def get (id : ObjectId) : Option Object := if received.appended id then none else received.imported id

def contains (id : ObjectId) : Bool := (received.get id).isSome

def kind (id : ObjectId) : Option ObjectKind := (received.get id).map Object.kind

def verified : VerifiedObjects := received.entries.foldl VerifiedObjects.record .empty

def provenTree (id : ObjectId) : Bool :=
  match received.verified.objects.get id with
  | some .tree => true
  | _ => false

/-- The edges of a received object: those that import kept, or those of the object read again. -/
def edges (id : ObjectId) : Except FetchError (Option (List (ObjectId × ObjectKind))) :=
  match received.verified.objects.get id with
  | some (.edges edges) => .ok (some edges)
  | _ =>
    match received.get id with
    | none => .ok none
    | some object => (objectEdges id object).map some

/-- The table of tree targets, when every received tree was read and no target has two kinds. -/
def treeProof : Option TreeTargets :=
  if received.verified.trees.unproven then none else some received.verified.trees

end ReceivedObjects

/-- Objects that the destination has, and those of them whose history is trusted to be complete. -/
structure KnownObjects where
  tryGet : ObjectId → Except FetchError (Option Object)
  tryKnownKind : ObjectId → Except FetchError (Option ObjectKind)
  trustedComplete : ObjectId → Bool

end Received

section Walk

/-- What is checked; the appended bases are known objects. -/
structure Request where
  received : ReceivedObjects
  known : KnownObjects
  wants : List ObjectId
  shallow : List ObjectId
  filter : Option ObjectFilter
  bases : ∀ entry ∈ received.entries, received.appended entry.1 = true →
    known.tryGet entry.1 = .ok (some entry.2) ∧ known.tryKnownKind entry.1 = .ok (some entry.2.kind)

namespace Request

variable (request : Request)

def lookup (id : ObjectId) : Except FetchError (Option Object) :=
  match request.received.get id with
  | some object => .ok (some object)
  | none => request.known.tryGet id

def kind (id : ObjectId) : Except FetchError (Option ObjectKind) :=
  match request.received.kind id with
  | some kind => .ok (some kind)
  | none => request.known.tryKnownKind id

def promised (expected : ObjectKind) (rootTree : Bool) : Bool := request.filter.any (·.mayOmit expected rootTree)

def edges (id : ObjectId) : Except FetchError (List (ObjectId × ObjectKind)) := do
  match ← request.received.edges id with
  | some edges => return edges
  | none =>
    match ← request.lookup id with
    | none => .error (.missing id)
    | some object => objectEdges id object

structure State where
  pending : List ObjectId
  seen : OrdMap ObjectId ObjectKind
  dependencies : List ObjectId
  remaining : Nat

def State.start (limits : FetchLimits) : State := ⟨[], .empty, [], limits.maxConnectivityEdges⟩

def checkShallow (id : ObjectId) : Except FetchError Unit := do
  match ← request.lookup id with
  | none => .error (.missing id)
  | some object => reject (object.kind ≠ .commit) (.kind id)

def addWant (state : State) (id : ObjectId) : Except FetchError State :=
  if state.seen.contains id then .ok state
  else do
    match ← request.kind id with
    | none => .error (.missing id)
    | some actual => return { state with seen := state.seen.insert id actual, pending := state.pending ++ [id] }

/-- Checks a target of the received trees; a known one is followed like any other dependency. -/
def addTarget (state : State) (target : ObjectId × ObjectKind) : Except FetchError State := do
  match ← request.kind target.1 with
  | none => if request.promised target.2 false then return state else .error (.missing target.1)
  | some actual =>
    reject (actual ≠ target.2) (.kind target.1)
    return { state with
      seen := state.seen.insert target.1 actual
      pending := if state.seen.contains target.1 || request.received.contains target.1 then state.pending
        else state.pending ++ [target.1] }

/-- Checks an edge of an object; the flags say whether the object is a commit, and whether history is
cut there. -/
def checkEdge (commit shallowCommit : Bool) (state : State) (edge : ObjectId × ObjectKind) :
    Except FetchError State :=
  if shallowCommit = true ∧ edge.2 = .commit then .ok state
  else do
    reject (state.remaining = 0) FetchError.limit
    let state := { state with remaining := state.remaining - 1 }
    match state.seen.get edge.1 with
    | some actual =>
      reject (actual ≠ edge.2) (FetchError.kind edge.1)
      return state
    | none =>
      match ← request.kind edge.1 with
      | none => if request.promised edge.2 commit then return state else .error (.missing edge.1)
      | some actual =>
        reject (actual ≠ edge.2) (FetchError.kind edge.1)
        return { state with seen := state.seen.insert edge.1 actual, pending := state.pending ++ [edge.1] }

def expand (proof : Bool) (state : State) (id : ObjectId) : Except FetchError State :=
  let known := ! request.received.contains id
  let state := if known then { state with dependencies := state.dependencies ++ [id] } else state
  if known && request.known.trustedComplete id then .ok state
  else do
    let kind ← request.kind id
    if kind = some .blob ∨ (proof = true ∧ request.received.provenTree id = true) then return state
    else
      let edges ← request.edges id
      edges.foldlM (request.checkEdge (kind = some .commit) (kind = some .commit && id ∈ request.shallow)) state

lemma checkEdge_measure {commit shallowCommit : Bool} {state state' : State}
    {edge : ObjectId × ObjectKind}
    (h : request.checkEdge commit shallowCommit state edge = .ok state') :
    state'.remaining + state'.pending.length ≤ state.remaining + state.pending.length := by
  unfold checkEdge at h
  split at h
  · cases h
    exact le_refl _
  · obtain ⟨⟨⟩, hrem, h⟩ := bind_ok.mp h
    rw [reject_ok] at hrem
    simp only at h
    split at h
    · obtain ⟨⟨⟩, -, hlast⟩ := bind_ok.mp h
      cases hlast
      simp only
      omega
    · obtain ⟨kind, -, h⟩ := bind_ok.mp h
      split at h
      · split at h
        · cases h
          simp only
          omega
        · cases h
      · obtain ⟨⟨⟩, -, hlast⟩ := bind_ok.mp h
        cases hlast
        simp only [List.length_append, List.length_cons, List.length_nil]
        omega

lemma expand_measure {proof : Bool} {state state' : State} {id : ObjectId}
    (h : request.expand proof state id = .ok state') :
    state'.remaining + state'.pending.length ≤ state.remaining + state.pending.length := by
  have hst : ∀ known : Bool, (if known then { state with dependencies := state.dependencies ++ [id] } else state).remaining +
      (if known then { state with dependencies := state.dependencies ++ [id] } else state).pending.length =
        state.remaining + state.pending.length := by
    intro known
    cases known <;> rfl
  unfold expand at h
  simp only at h
  split at h
  · cases h
    exact le_of_eq (hst _)
  · obtain ⟨kind, -, h⟩ := bind_ok.mp h
    split at h
    · cases h
      exact le_of_eq (hst _)
    · obtain ⟨edges, -, h⟩ := bind_ok.mp h
      refine foldlM_induct (P := fun later => later.remaining + later.pending.length ≤
        state.remaining + state.pending.length) ?_ (le_of_eq (hst _)) h
      intro before edge after _ hbf hstep
      exact le_trans (request.checkEdge_measure hstep) hbf

def walkPending (proof : Bool) (state : State) : Except FetchError State :=
  match _hpending : state.pending with
  | [] => .ok state
  | id :: pending =>
    match _hstep : request.expand proof { state with pending := pending } id with
    | .error error => .error error
    | .ok state' => walkPending proof state'
termination_by state.remaining + state.pending.length
decreasing_by
  have hmeasure := request.expand_measure _hstep
  simp only at hmeasure
  rw [_hpending, List.length_cons]
  omega

/-- Enters the targets of received trees, whose entries are charged at once. -/
def startProof (proof : Option TreeTargets) (state : State) : Except FetchError State :=
  match proof with
  | none => .ok state
  | some targets => do
    reject (state.remaining < targets.edges) FetchError.limit
    targets.kinds.entries.foldlM request.addTarget { state with remaining := state.remaining - targets.edges }

def walk (limits : FetchLimits) (proof : Option TreeTargets) : Except FetchError State := do
  request.shallow.forM request.checkShallow
  let state ← request.wants.foldlM request.addWant (.start limits)
  let state ← request.startProof proof state
  request.walkPending proof.isSome state

/-- The known objects that the received ones depend on. A failure of the collective proof leaves the
decision to the exact walk. -/
def validate (limits : FetchLimits) : Except FetchError (List ObjectId) :=
  match request.received.treeProof with
  | none => (request.walk limits none).map State.dependencies
  | some proof =>
    match request.walk limits (some proof) with
    | .ok walked => .ok walked.dependencies
    | .error _ => (request.walk limits none).map State.dependencies

end Request

end Walk

end Girt.Fetch
