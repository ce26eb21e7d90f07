import Girt.Refs.Files.Transaction

/-!
# Publication of prepared edits

Publication makes its changes in a fixed order and stops at the first one that fails. The faults
of the file system are a parameter: they say for every change whether it fails.
-/

namespace Girt.Refs.Files
open ByteLib

variable (operation : Operation) (refs : References)

inductive Site where
  | locks
  | packed
  | reference (index : Nat)
  | log (index logIndex : Nat)
  deriving DecidableEq

abbrev Faults := Site → Option Fault

def Operation.change : Change :=
  match operation.target with
  | some target => .writeLoose operation.name (targetBytes target)
  | none => .removeLoose operation.name

def Operation.error (operation : Operation) (fault : Fault) : ReferenceError :=
  match operation.target with
  | some _ => replaceError (refs.path operation.name) fault
  | none => removeError (refs.path operation.name) operation.packedRemoved fault

def Operation.logChange (log : RefName × Bytes) : Change :=
  if operation.deleteLog then .removeLog log.1 else .appendLog log.1 log.2

/-- What is left behind by a log change that failed, and how many bytes of the record that is.
An append that fails has not written the whole record. -/
def Operation.tornLog (log : RefName × Bytes) (fault : Fault) (store : Store) : Store × Nat :=
  match fault with
  | .refused _ => (store, 0)
  | .interrupted written =>
    if operation.deleteLog then (store, 0)
    else
      let count := min written (log.2.length - 1)
      ((Change.appendLog log.1 (log.2.take count)).run store, count)

abbrev Outcomes := List RefEditOutcome

namespace Outcomes

def setReference (outcomes : Outcomes) (index : Nat) (outcome : RefOutcome) : Outcomes :=
  outcomes.modify index (fun edit => { edit with reference := outcome })

def setLog (outcomes : Outcomes) (index logIndex : Nat) (outcome : LogOutcome) : Outcomes :=
  outcomes.modify index (fun edit =>
    { edit with logs := edit.logs.modify logIndex (fun log => (log.1, outcome)) })

end Outcomes

/-- What a finished log change is reported as. -/
def Operation.logOutcome : LogOutcome := if operation.deleteLog then .deleted else .appended

def publishLogs (refs : References) (faults : Faults) (index : Nat) (operation : Operation) :
    List ((RefName × Bytes) × Nat) → Store → Outcomes → Store × Except TransactionError Outcomes
  | [], store, outcomes => (store, .ok outcomes)
  | (log, logIndex) :: rest, store, outcomes =>
    match faults (.log index logIndex) with
    | none =>
      publishLogs refs faults index operation rest ((operation.logChange log).run store)
        (outcomes.setLog index logIndex operation.logOutcome)
    | some fault =>
      let (store, written) := operation.tornLog log fault store
      (store, .error (.publish (outcomes.setLog index logIndex (.failed written))
        (replaceError (refs.reflogPath log.1) fault)))

def publishOperations (refs : References) (faults : Faults) :
    List (Operation × Nat) → Store → Outcomes → Store × Except TransactionError Outcomes
  | [], store, outcomes => (store, .ok outcomes)
  | (operation, index) :: rest, store, outcomes =>
    match faults (.reference index) with
    | some fault => (store, .error (.publish outcomes (operation.error refs fault)))
    | none =>
      match publishLogs refs faults index operation operation.logs.zipIdx (operation.change.run store)
          (outcomes.setReference index .published) with
      | (store, .error error) => (store, .error error)
      | (store, .ok outcomes) => publishOperations refs faults rest store outcomes

/-- What is reported for an operation before anything is done. -/
def Operation.unchanged (operation : Operation) : RefEditOutcome :=
  ⟨operation.name, .unchanged, operation.logs.map (fun log => (log.1, .notAttempted))⟩

/-- What is reported for an operation once the packed file is replaced. -/
def Operation.afterPacked : RefEditOutcome :=
  if operation.packedRemoved then { operation.unchanged with reference := .packedRemoved } else operation.unchanged

def publish (refs : References) (faults : Faults) (prepared : Prepared) (store : Store) :
    Store × Except TransactionError Outcomes :=
  let outcomes := prepared.operations.map Operation.unchanged
  match faults .locks with
  | some fault => (store, .error (.publish outcomes (replaceError refs.packedPath fault)))
  | none =>
    if prepared.operations.any Operation.packedRemoved then
      match faults .packed with
      | some fault => (store, .error (.publish outcomes (replaceError refs.packedPath fault)))
      | none =>
        publishOperations refs faults prepared.operations.zipIdx
          ((Change.replacePacked prepared.replacement).run store) (prepared.operations.map Operation.afterPacked)
    else publishOperations refs faults prepared.operations.zipIdx store outcomes

def checkIdentity (identity : LogIdentity) (edit : RefEdit) : Except ReferenceError Unit :=
  reject (identity = .stored ∧ (edit.dereference = .follow ∨ edit.target matches some (.symbolic _)))
    (.unsupported "stored log identities require non-dereferencing direct edits or deletions")

def validateEdits (identity : LogIdentity) (edits : List RefEdit) : Except TransactionError Unit :=
  edits.zipIdx.forM (fun (edit, index) => do
    wrapError (.prepare (some index)) (checkIdentity identity edit)
    wrapError (.prepare (some index)) (validateEdit refs.format edit))

def transaction (identity : LogIdentity) (faults : Faults) (store : Store)
    (edits : List RefEdit) : Store × Except TransactionError Outcomes :=
  if edits = [] then (store, .ok [])
  else
    match validateEdits refs identity edits >>= fun _ => prepare refs identity store edits with
    | .error error => (store, .error error)
    | .ok prepared => publish refs faults prepared store

/-- The terminal name of a symbolic chain and its value, with every name of the chain locked. -/
def lockResolution (refs : References) (store : Store) (packed : Packed) (seen : List RefName) (current : RefName) :
    Except ReferenceError (RefName × Option Target) :=
  if current ∈ seen then .error (.cycle current)
  else
    match checkPackedNamespace refs packed current >>= fun _ => readLocked refs store packed current with
    | .error error => .error error
    | .ok (some (.symbolic next)) =>
      if seen.length + 1 > 32 then .error (.depth 32)
      else lockResolution refs store packed (seen ++ [current]) next
    | .ok actual => .ok (current, actual)
termination_by 32 - seen.length
decreasing_by
  rw [List.length_append, List.length_singleton]
  omega

/-- Removes the packed record while the loose value still hides it, then the loose value. -/
def deleteLocked (faults : Faults) (store : Store) (name : RefName) (packed : Snapshot) :
    Store × Except ReferenceError Unit :=
  let packedChanged := packed.records.contains name.bytes
  let removeLoose (store : Store) : Store × Except ReferenceError Unit :=
    match faults (.reference 0) with
    | some fault => (store, .error (removeError (refs.path name) packedChanged fault))
    | none => ((Change.removeLoose name).run store, .ok ())
  if packedChanged then
    match faults .packed with
    | some fault => (store, .error (replaceError refs.packedPath fault))
    | none => removeLoose ((Change.replacePacked (withoutRef refs.format packed.bytes name)).run store)
  else removeLoose store

/-- What a deletion checks before it changes anything: the name it removes and the packed file. -/
def prepareDelete (store : Store) (name : RefName) (dereference : Dereference)
    (expected : Expected) : Except ReferenceError (RefName × Snapshot) := do
  validateExpected refs.format expected
  let packed ← loadPacked refs store
  match dereference with
  | .stored =>
    checkPackedNamespace refs packed.records name
    let actual ← readLocked refs store packed.records name
    checkExpected actual expected
    pure (name, packed)
  | .follow =>
    let (current, actual) ← lockResolution refs store packed.records [] name
    checkExpected actual expected
    pure (current, packed)

def delete (refs : References) (faults : Faults) (store : Store) (name : RefName) (dereference : Dereference)
    (expected : Expected) : Store × Except ReferenceError RefName :=
  match prepareDelete refs store name dereference expected with
  | .error error => (store, .error error)
  | .ok (current, packed) =>
    match deleteLocked refs faults store current packed with
    | (store, .error error) => (store, .error error)
    | (store, .ok ()) => (store, .ok current)

end Girt.Refs.Files
