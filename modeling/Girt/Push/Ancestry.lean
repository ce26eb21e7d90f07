import Mathlib.Order.BooleanAlgebra.Basic
import Girt.Objects.Store
import Girt.Refs.Name

/-!
# Fast-forward proofs of a push

The ancestries of the new and the old commit are painted together, the latest commits first. The walk
stops as soon as no commit that could still lead to the old one is queued.
-/

namespace Girt.Push
open ByteLib

inductive Error where
  | read (id : ObjectId) (source : ObjectReadError)
  | missing (id : ObjectId)
  | kind (id : ObjectId)
  | commit (id : ObjectId) (source : CommitError)
  | limit (resource : String)
  | wouldForce (name : Refs.RefName)
  | panic (message : String)
  deriving DecidableEq

structure CommitNode where
  parents : List ObjectId
  date : Int
  deriving DecidableEq

/-- What the walk reads: objects that were selected before, or those of the store. -/
structure Objects where
  format : ObjectFormat
  read : ObjectId → Except ObjectReadError (Option Object)

/-- An absent or uninterpretable date orders as the epoch. -/
def parseCommit (format : ObjectFormat) (id : ObjectId) (object : Object) : Except Error CommitNode := do
  let commit ← wrapError (.commit id) (Commit.parse format object.data)
  .ok ⟨commit.parents, (commit.committedAt.map Int64.toInt).getD 0⟩

def Objects.ancestryCommit (objects : Objects) (id : ObjectId) (required : Bool) :
    Except Error (Option CommitNode) := do
  match ← wrapError (.read id) (objects.read id) with
  | none => if required then .error (.missing id) else .ok none
  | some object =>
    if object.kind ≠ .commit then if required then .error (.kind id) else .ok none
    else some <$> parseCommit objects.format id object

/-- The parsed commit of an identity that the walk got to. -/
def Objects.node (objects : Objects) (id : ObjectId) : Option CommitNode :=
  match objects.ancestryCommit id false with
  | .ok node => node
  | .error _ => none

/-- Whether a commit was reached from the new commit and from the old one. -/
abbrev Paint := Bool × Bool

structure Walk where
  paints : ObjectId → Paint
  queued : ObjectId → Bool
  queue : List (Int × ObjectId)
  opened : Nat
  steps : Nat

def pending (old id : ObjectId) (paint : Paint) : Bool := paint.1 && (! paint.2 || id = old)

namespace Walk

def ancestryStep (walk : Walk) : Except Error Walk :=
  if walk.steps = 0 then .error (.limit "ancestry steps") else .ok { walk with steps := walk.steps - 1 }

def push (walk : Walk) (date : Int) (id : ObjectId) : Walk :=
  { walk with queued := Function.update walk.queued id true, queue := walk.queue ++ [(date, id)] }

def paintParent (objects : Objects) (old : ObjectId) (paint : Paint) (walk : Walk) (parent : ObjectId) :
    Except Error Walk := do
  let walk ← walk.ancestryStep
  let before := walk.paints parent
  let after := before ⊔ paint
  if after = before then .ok walk
  else
    let painted := { walk with paints := Function.update walk.paints parent after }
    let required := pending old parent after
    if walk.queued parent then
      if pending old parent before && ! required then .ok { painted with opened := walk.opened - 1 }
      else if ! pending old parent before && required then .ok { painted with opened := walk.opened + 1 }
      else .ok painted
    else
      match ← objects.ancestryCommit parent required with
      | none => .ok painted
      | some node => .ok { painted.push node.date parent with opened := walk.opened + required.toNat }

/-- Takes the latest commit out, the first queued among those of one date. -/
def pop (walk : Walk) : Option (ObjectId × Walk) :=
  (walk.queue.find? fun entry => walk.queue.all (·.1 ≤ entry.1)).map fun entry =>
    (entry.2, { walk with queue := walk.queue.erase entry, queued := Function.update walk.queued entry.2 false })

/-- The answer, and the steps that are left for other proofs. -/
def run (objects : Objects) (old : ObjectId) : Nat → Walk → Except Error (Bool × Nat)
  | 0, _ => .error (.limit "ancestry steps")
  | fuel + 1, walk =>
    if walk.opened = 0 then .ok (false, walk.steps)
    else match walk.pop with
    | none => .error (.panic "open commits are queued")
    | some (id, walk) => do
      let paint := walk.paints id
      let walk ← ancestryStep { walk with opened := walk.opened - (pending old id paint).toNat }
      if id = old ∧ paint.1 then .ok (true, walk.steps)
      else
        let parents := ((objects.node id).map CommitNode.parents).getD []
        let walk ← parents.foldlM (paintParent objects old paint) walk
        run objects old fuel walk

end Walk

/-- Every round takes a step, so there are no more rounds than steps. -/
def isAncestor (objects : Objects) (steps : Nat) (old new : ObjectId) : Except Error (Bool × Nat) := do
  match ← objects.ancestryCommit new true with
  | none => .error (.panic "required")
  | some node =>
    let walk : Walk := ⟨Function.update ⊥ new (true, false), fun _ => false, [], 1, steps⟩
    let walk := walk.push node.date new
    match ← objects.ancestryCommit old false with
    | none => walk.run objects old (steps + 1)
    | some node =>
      let walk := { walk with paints := Function.update walk.paints old (false, true) }
      (walk.push node.date old).run objects old (steps + 1)

inductive ForcePolicy where
  | fastForwardOnly
  | allow
  deriving DecidableEq

structure PushCommand where
  name : Refs.RefName
  expected : Option ObjectId
  new : ObjectId
  force : ForcePolicy

def PushCommand.deletes (command : PushCommand) : Bool := command.new.isNull

def checkFastForward (objects : Objects) (steps : Nat) (command : PushCommand) : Except Error Nat :=
  if command.deletes = true ∨ command.force = .allow then .ok steps
  else match command.expected with
  | none => .ok steps
  | some old =>
    if old = command.new then .ok steps
    else if ascii "refs/heads/" <+: command.name.bytes then do
      let (answer, steps) ← isAncestor objects steps old command.new
      if answer then .ok steps else .error (.wouldForce command.name)
    else if ascii "refs/tags/" <+: command.name.bytes then .error (.wouldForce command.name)
    else .ok steps

/-- The commands of a push share the steps; what is left of them is returned. -/
def checkFastForwards (objects : Objects) (steps : Nat) (commands : List PushCommand) : Except Error Nat :=
  commands.foldlM (checkFastForward objects) steps

end Girt.Push
