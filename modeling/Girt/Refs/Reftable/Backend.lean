import Mathlib.Data.List.Sort
import Girt.Refs.Reftable.Stack

/-!
# Transactions on reftable stacks

Common and per-worktree references live in two stacks. A batch of edits is prepared against one
snapshot of both, becomes at most one new table for each, and is published stack by stack.
-/

namespace Girt.Refs.Reftable
open ByteLib

structure References where
  format : ObjectFormat
  limits : StackLimits
  gitDir : Path
  commonDir : Path

variable (refs : References)

abbrev Stacks := Path → StackDir

def stackPath (root : Path) : Path := root ++ ascii "/reftable"

def directory (name : RefName) : Path :=
  stackPath (if name.perWorktree then refs.gitDir else refs.commonDir)

def directories : List Path :=
  let paths : OrdMap Path Unit := .insertAll .empty [(stackPath refs.commonDir, ()), (stackPath refs.gitDir, ())]
  paths.entries.map Prod.fst

structure Group where
  root : Path
  snapshot : Snapshot
  table : Table
  bytes : Bytes
  logs : OrdMap Bytes LogOutcome

structure Batch where
  groups : List Group
  used : OrdMap Bytes Unit
  outcomes : List RefEditOutcome

def openGroup (codec : Codec) (refs : References) (store : Stacks) (root : Path) :
    Except ReferenceError Group := do
  let snapshot ← Snapshot.read codec (store root) refs.format refs.limits
  reject (snapshot.table.maxUpdateIndex.toNat + 1 ≥ 2 ^ 64) (.reftable (.limit "update index exhausted"))
  let next := snapshot.table.maxUpdateIndex + 1
  pure ⟨root, snapshot, ⟨refs.format, next, next, [], []⟩, [], .empty⟩

/-- A record that stands for a reference in the stack it was read from. -/
def visible (root : Path) (record : RefRecord) : Option (Bytes × Target) := do
  let name ← record.name.referenceName
  let target ← record.target
  if directory refs name = root then some (name.bytes, target) else none

def currentValues (groups : List Group) : OrdMap Bytes Target :=
  .insertAll .empty
    (groups.flatMap (fun group => group.snapshot.table.references.filterMap (visible refs group.root)))

/-- Extends a symbolic chain until it reaches something that is not symbolic. -/
def resolveFrom (values : OrdMap Bytes Target) (chain : List RefName) (current : RefName) :
    Except ReferenceError (List RefName) :=
  if current ∈ chain then .error (.cycle current)
  else
    match values.get current.bytes with
    | some (.symbolic next) =>
      if chain.length + 1 > 32 then .error (.depth 32)
      else resolveFrom values (chain ++ [current]) next
    | _ => .ok (chain ++ [current])
termination_by 32 - chain.length
decreasing_by
  rw [List.length_append, List.length_singleton]
  omega

def resolve (values : OrdMap Bytes Target) (name : RefName) : Except ReferenceError (List RefName) :=
  resolveFrom values [] name

/-- The object at the end of a chain, or the null object. -/
def terminalId (values : OrdMap Bytes Target) (chain : List RefName) (format : ObjectFormat) : ObjectId :=
  match chain.getLast?.bind (fun name => values.get name.bytes) with
  | some (.direct id) => id
  | _ => ObjectId.null format

def slash : UInt8 := 47

/-- Whether an ancestor of `name` is a key. -/
def hasAncestor {ν : Type} (keys : OrdMap Bytes ν) (name : Bytes) : Bool :=
  (List.range name.length).any (fun index => name[index]? = some slash && keys.contains (name.take index))

/-- Whether the least key from `name/` on is a descendant of `name`. -/
def hasDescendant {ν : Type} (keys : OrdMap Bytes ν) (name : Bytes) : Bool :=
  match keys.rangeFrom (name ++ [slash]) with
  | [] => false
  | entry :: _ => (name ++ [slash]).isPrefixOf entry.1

def namespaceConflict (name : RefName) (values : OrdMap Bytes Target) (used : OrdMap Bytes Unit) : Bool :=
  hasAncestor values name.bytes || hasAncestor used name.bytes || hasDescendant values name.bytes ||
    hasDescendant used name.bytes

/-- The names an edit depends on, starting with its own. -/
def chainFor (values : OrdMap Bytes Target) (edit : RefEdit) : Except ReferenceError (List RefName) :=
  if edit.dereference = .follow ∨ edit.reflog.appendFields.isSome then resolve values edit.name
  else .ok [edit.name]

def destination (edit : RefEdit) (chain : List RefName) : RefName :=
  if edit.dereference = .follow then chain.getLast?.getD edit.name else edit.name

def claimName (overlap : String) (used : OrdMap Bytes Unit) (name : RefName) :
    Except ReferenceError (OrdMap Bytes Unit) := do
  reject (used.contains name.bytes) (.unsupported overlap)
  pure (used.insert name.bytes ())

/-- The object a log entry of the edit names as new, and the names that value depends on. -/
def newId (values : OrdMap Bytes Target) (edit : RefEdit) (chain : List RefName)
    (used : OrdMap Bytes Unit) : Except ReferenceError (ObjectId × OrdMap Bytes Unit) :=
  match edit.target with
  | some (.direct id) => .ok (id, used)
  | none => .ok (ObjectId.null refs.format, used)
  | some (.symbolic target) =>
    if edit.reflog.appendFields.isSome then do
      let targetChain ← resolve values target
      let used ← (targetChain.filter (fun dependency => dependency ∉ chain)).foldlM
        (claimName "overlapping symbolic dependencies") used
      pure (terminalId values targetChain refs.format, used)
    else .ok (ObjectId.null refs.format, used)

/-- The logs the policy of an edit is about, before existence is considered. -/
def policyNames (values : OrdMap Bytes Target) (edit : RefEdit) (name : RefName) (chain : List RefName) :
    List RefName :=
  match edit.reflog with
  | .preserve => []
  | .delete => [name]
  | .append _ _ => if edit.dereference = .follow then chain else [name]
  | .appendIfChanged _ _ | .appendExistingIfChanged _ _ =>
    if values.get name.bytes = edit.target then []
    else if edit.dereference = .follow then chain else [name]

def Group.hasLog (group : Group) (name : RefName) : Bool :=
  group.snapshot.table.logs.any (fun record => record.name.bytes = name.bytes && record.value.isSome)

def hasLog (refs : References) (groups : List Group) (name : RefName) : Bool :=
  (groups.find? (fun group => group.root = directory refs name)).any (fun group => group.hasLog name)

def logNames (values : OrdMap Bytes Target) (groups : List Group) (edit : RefEdit)
    (name : RefName) (chain : List RefName) : List RefName :=
  let names := policyNames values edit name chain
  if edit.reflog.onlyExisting then names.filter (hasLog refs groups) else names

def logValue (old new : ObjectId) (committer : Signature) (message : Bytes) : LogValue :=
  ⟨old, new, committer.name, committer.email, committer.seconds.toUInt64, committer.offsetMinutes,
    message ++ [10]⟩

namespace Group

def pushReference (group : Group) (name : RefName) (target : Option Target) : Group :=
  { group with table := { group.table with
      references := group.table.references ++
        [⟨.ofRefName name, group.table.maxUpdateIndex, target, none⟩] } }

/-- One tombstone for every live entry of the log. -/
def tombstones (group : Group) (name : RefName) : List LogRecord :=
  (group.snapshot.table.logs.filter (fun record => record.name.bytes = name.bytes && record.value.isSome)).map
    (fun record => ⟨.ofRefName name, record.updateIndex, none⟩)

def pushLog (group : Group) (reflog : Reflog) (old new : ObjectId) (name : RefName) : Group :=
  match reflog with
  | .append committer message | .appendIfChanged committer message
  | .appendExistingIfChanged committer message =>
    { group with
      table := { group.table with
        logs := group.table.logs ++
          [⟨.ofRefName name, group.table.maxUpdateIndex, some (logValue old new committer message)⟩] }
      logs := group.logs.insert name.bytes .appended }
  | .delete =>
    { group with
      table := { group.table with logs := group.table.logs ++ group.tombstones name }
      logs := group.logs.insert name.bytes .deleted }
  | .preserve => group

end Group

def updateGroup (root : Path) (f : Group → Group) (groups : List Group) : List Group :=
  groups.map (fun group => if group.root = root then f group else group)

def prepareEdit (values : OrdMap Bytes Target) (batch : Batch) (edit : RefEdit) :
    Except ReferenceError Batch := do
  let chain ← chainFor values edit
  let name := destination edit chain
  checkExpected (values.get name.bytes) edit.expected
  let used ← chain.foldlM (claimName "overlapping reference operations") batch.used
  reject (namespaceConflict name values used) (.conflict (directory refs name))
  let old := terminalId values chain refs.format
  let (new, used) ← newId refs values edit chain used
  let groups := updateGroup (directory refs name) (fun group => group.pushReference name edit.target) batch.groups
  let logged := logNames refs values groups edit name chain
  let groups := logged.foldl (fun groups logName =>
    updateGroup (directory refs logName) (fun group => group.pushLog edit.reflog old new logName) groups) groups
  pure ⟨groups, used, batch.outcomes ++ [⟨name, .unchanged, logged.map (fun logName => (logName, .notAttempted))⟩]⟩

namespace Group

def sort (group : Group) : Group :=
  { group with table := { group.table with
      references := group.table.references.insertionSort (fun a b => a.key ≤ b.key)
      logs := group.table.logs.insertionSort (fun a b => a.key ≤ b.key) } }

/-- Encodes the new table of a group and checks that the resulting stack can be read again. -/
def encode (codec : Codec) (limits : StackLimits) (group : Group) : Except ReferenceError Group := do
  let bytes ← wrapError .reftable (group.table.encode codec.zlib codec.crc32 limits.records)
  let (_, records, decoded) ←
    wrapError .reftable (Table.decodeUsage codec.zlib codec.crc32 bytes limits.records)
  reject (group.snapshot.names.length ≥ limits.tables.toNat ∨
    bytes.length > limits.records.bytes.toNat - group.snapshot.usedBytes ∨
    records > limits.records.records.toNat - group.snapshot.usedRecords ∨
    decoded > limits.records.decodedBytes.toNat - group.snapshot.usedDecoded ∨
    (group.snapshot.names.map (fun name => name.length + 1)).sum + 128 > limits.listBytes.toNat)
    (.reftable (.limit "resulting stack budget; compact or raise limits"))
  pure { group with bytes }

def finish (codec : Codec) (limits : StackLimits) (group : Group) : Except ReferenceError Group :=
  if group.sort.table.references = [] ∧ group.sort.table.logs = [] then .ok group.sort
  else group.sort.encode codec limits

end Group

structure Prepared where
  groups : List Group
  outcomes : List RefEditOutcome

def validateEdits (format : ObjectFormat) (edits : List RefEdit) : Except TransactionError Unit :=
  edits.zipIdx.forM (fun (edit, index) => wrapError (.prepare (some index)) (validateEdit format edit))

def prepare (codec : Codec) (refs : References) (store : Stacks) (edits : List RefEdit) :
    Except TransactionError Prepared := do
  validateEdits refs.format edits
  let groups ← (directories refs).mapM (fun root => wrapError (.prepare none) (openGroup codec refs store root))
  let values := currentValues refs groups
  let batch ← edits.zipIdx.foldlM (fun batch (edit, index) =>
    wrapError (.prepare (some index)) (prepareEdit refs values batch edit)) ⟨groups, .empty, []⟩
  let groups ← batch.groups.mapM (fun group => wrapError (.prepare none) (group.finish codec refs.limits))
  pure ⟨groups, batch.outcomes⟩

/-- What publishing a group completes for one edit. -/
def Group.report (group : Group) (outcome : RefEditOutcome) : RefEditOutcome :=
  { outcome with
    reference := if group.table.references.any (fun record => record.name.bytes = outcome.name.bytes)
      then .published else outcome.reference
    logs := outcome.logs.map (fun (name, result) => (name, (group.logs.get name.bytes).getD result)) }

/-- Publishes the groups in order. What has been published stays when a later group fails. -/
def publishGroups (limits : StackLimits) (suffixes : Path → List UInt32) :
    List Group → Stacks → List RefEditOutcome → Stacks × Except TransactionError (List RefEditOutcome)
  | [], store, outcomes => (store, .ok outcomes)
  | group :: rest, store, outcomes =>
    if group.bytes = [] then publishGroups limits suffixes rest store (outcomes.map group.report)
    else
      match publish limits (store group.root) group.snapshot.names group.table group.bytes
          (suffixes group.root) with
      | .error source => (store, .error (.publish outcomes source))
      | .ok dir =>
        publishGroups limits suffixes rest (Function.update store group.root dir) (outcomes.map group.report)

def transaction (codec : Codec) (refs : References) (suffixes : Path → List UInt32) (store : Stacks)
    (edits : List RefEdit) : Stacks × Except TransactionError (List RefEditOutcome) :=
  if edits = [] then (store, .ok [])
  else
    match validateEdits refs.format edits >>= fun _ => prepare codec refs store edits with
    | .error error => (store, .error error)
    | .ok prepared => publishGroups refs.limits suffixes prepared.groups store prepared.outcomes

structure ReferenceObservation where
  name : RefName
  target : Target
  peeledHint : Option ObjectId

def readObservation (codec : Codec) (refs : References) (store : Stacks) (name : RefName) :
    Except ReferenceError (Option ReferenceObservation) := do
  let snapshot ← Snapshot.read codec (store (directory refs name)) refs.format refs.limits
  pure ((snapshot.table.references.find? (fun record => record.name.bytes = name.bytes)).bind
    (fun record => record.target.map (fun target => ⟨name, target, record.peeled⟩)))

def References.read (codec : Codec) (refs : References) (store : Stacks) (name : RefName) :
    Except ReferenceError (Option Target) := do
  let observation ← readObservation codec refs store name
  pure (observation.map ReferenceObservation.target)

end Girt.Refs.Reftable
