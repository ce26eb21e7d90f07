import Girt.Lib.Chain
import Girt.Refs.Files.Publish

/-!
# Publication step by step

The changes that a publication is made of, in order, and what a reader and a caller may see when
it stops somewhere between them.
-/

namespace Girt.Refs.Files
open ByteLib

variable (refs : References)

/-- A change and the place where it can fail. -/
abbrev Step := Site × Change

def runSteps (steps : List Step) (store : Store) : Store := steps.foldl (fun store step => step.2.run store) store

def sites (steps : List Step) : List Site := steps.map Prod.fst

/-- The reference is stored before its logs. -/
def Operation.logSteps (operation : Operation) (index : Nat) (logs : List ((RefName × Bytes) × Nat)) : List Step :=
  logs.map (fun log => (.log index log.2, operation.logChange log.1))

def Operation.steps (operation : Operation) (index : Nat) : List Step :=
  (.reference index, operation.change) :: operation.logSteps index operation.logs.zipIdx

namespace Prepared

/-- The packed file is replaced before any loose file is touched. -/
def packedSteps (prepared : Prepared) : List Step :=
  if prepared.operations.any Operation.packedRemoved then [(.packed, .replacePacked prepared.replacement)] else []

def operationSteps (operations : List (Operation × Nat)) : List Step :=
  operations.flatMap (fun operation => operation.1.steps operation.2)

def steps (prepared : Prepared) : List Step :=
  prepared.packedSteps ++ operationSteps prepared.operations.zipIdx

end Prepared

/-- What the finished steps of a publication, and the log change that failed after writing some
bytes, amount to for one edit. -/
def Operation.describe (operation : Operation) (index : Nat) (done : List Site) (torn : Option (Site × Nat)) :
    RefEditOutcome where
  name := operation.name
  reference :=
    if .reference index ∈ done then .published
    else if operation.packedRemoved = true ∧ .packed ∈ done then .packedRemoved
    else .unchanged
  logs := operation.logs.zipIdx.map (fun log => (log.1.1,
    if .log index log.2 ∈ done then operation.logOutcome
    else
      match torn with
      | none => .notAttempted
      | some (site, written) => if site = .log index log.2 then .failed written else .notAttempted))

def describe (operations : List Operation) (done : List Site) (torn : Option (Site × Nat)) : Outcomes :=
  operations.zipIdx.map (fun operation => operation.1.describe operation.2 done torn)

/-- What a failed log change leaves behind: nothing, or part of its record. -/
def LeavesBehind (change : Change) (written : Nat) (store store' : Store) : Prop :=
  (written = 0 ∧ store' = store) ∨
    ∃ name bytes, change = .appendLog name bytes ∧ written ≤ bytes.length - 1 ∧
      store' = (Change.appendLog name (bytes.take written)).run store

/-- A publication has finished `done` and not `rest`, and reports exactly that. -/
inductive Stops (operations : List Operation) (store : Store) (done rest : List Step) :
    Store × Except TransactionError Outcomes → Prop
  | finished (h : rest = []) :
    Stops operations store done rest (runSteps done store, .ok (describe operations (sites done) none))
  | failed (source : ReferenceError) :
    Stops operations store done rest
      (runSteps done store, .error (.publish (describe operations (sites done) none) source))
  | torn (index logIndex written : Nat) (change : Change) (later : List Step) (store' : Store)
    (source : ReferenceError) (h : rest = (.log index logIndex, change) :: later)
    (hstore : LeavesBehind change written (runSteps done store) store') :
    Stops operations store done rest
      (store', .error (.publish (describe operations (sites done) (some (.log index logIndex, written))) source))

/-- Every edited name reads as before or as after the edits, every other name as before. -/
structure Between (refs : References) (operations : List Operation) (before now : Store) : Prop where
  edited : ∀ operation ∈ operations,
    read refs now operation.name = read refs before operation.name ∨
      read refs now operation.name = .ok operation.target
  others : ∀ name, (∀ operation ∈ operations, operation.name ≠ name) → read refs now name = read refs before name

/-- The edits have all been made. -/
def After (operations : List Operation) (now : Store) : Prop :=
  ∀ operation ∈ operations, read refs now operation.name = .ok operation.target

/-- The name that an edit or a deletion is about: the given one, or the end of its symbolic chain. -/
def Designates (store : Store) (name : RefName) (dereference : Dereference) (final : RefName) :
    Prop :=
  match dereference with
  | .stored => final = name
  | .follow => ∃ chain, Links.Chain (link refs store) name chain ∧ chain.getLast? = some final

/-- A transaction that passed its checks: whatever first part of its steps is made, readers see
old or new values, and the caller is told which part it was. -/
structure TransactionAtomic (refs : References) (store : Store) (edits : List RefEdit) (prepared : Prepared)
    (result : Store × Except TransactionError Outcomes) : Prop where
  edits : List.Forall₂ (fun edit operation => Designates refs store edit.name edit.dereference operation.name ∧
    operation.target = edit.target) edits prepared.operations
  prefixes : ∀ done rest, prepared.steps = done ++ rest → Between refs prepared.operations store (runSteps done store)
  complete : After refs prepared.operations (runSteps prepared.steps store)
  stops : ∃ done rest, prepared.steps = done ++ rest ∧ Stops prepared.operations store done rest result
  visible : Between refs prepared.operations store result.1

/-- A deletion as a publication of one operation without logs. -/
def deletion (name : RefName) (packed : Snapshot) : Prepared :=
  let removed := packed.records.contains name.bytes
  ⟨if removed then withoutRef refs.format packed.bytes name else [], [⟨name, none, removed, false, []⟩]⟩

/-- The error of the step at which a deletion failed. -/
def deletionError (name : RefName) (packed : Snapshot) (site : Site) (fault : Fault) :
    ReferenceError :=
  match site with
  | .packed => replaceError refs.packedPath fault
  | _ => removeError (refs.path name) (packed.records.contains name.bytes) fault

/-- A deletion that passed its checks, in the same way. -/
structure DeletionAtomic (refs : References) (faults : Faults) (store : Store) (name : RefName) (packed : Snapshot)
    (result : Store × Except ReferenceError RefName) : Prop where
  prefixes : ∀ done rest, (deletion refs name packed).steps = done ++ rest →
    Between refs (deletion refs name packed).operations store (runSteps done store)
  complete : After refs (deletion refs name packed).operations (runSteps (deletion refs name packed).steps store)
  stops : ∃ done rest, (deletion refs name packed).steps = done ++ rest ∧
    ((rest = [] ∧ result = (runSteps done store, .ok name)) ∨
      ∃ step later fault, rest = step :: later ∧ faults step.1 = some fault ∧
        result = (runSteps done store, .error (deletionError refs name packed step.1 fault)))
  visible : Between refs (deletion refs name packed).operations store result.1

end Girt.Refs.Files
