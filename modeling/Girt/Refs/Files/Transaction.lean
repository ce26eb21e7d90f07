import Girt.Refs.Files.Store

/-!
# Transactions on loose and packed references

Edits are checked under locks first. Publication then replaces the packed file at most once and
changes loose files and logs one by one.
-/

namespace Girt.Signature
open ByteLib

def twoDigits (n : Nat) : Bytes := if n < 10 then ascii "0" ++ ascii (toString n) else ascii (toString n)

def encode (signature : Signature) : Bytes :=
  let offset := signature.offsetMinutes.toInt.natAbs
  ascii " " ++ signature.name ++ ascii " <" ++ signature.email ++ ascii "> " ++
    ascii (toString signature.seconds.toInt) ++ ascii " " ++
    (if signature.offsetMinutes < 0 then ascii "-" else ascii "+") ++ twoDigits (offset / 60) ++
    twoDigits (offset % 60)

end Girt.Signature

namespace Girt.Refs.Files
open ByteLib Pieces

/-- What the identities of a log entry stand for. -/
inductive LogIdentity where
  | resolved
  | stored
  deriving DecidableEq

abbrev Observed := List (RefName × Option Target)

def Observed.names (chain : Observed) : List RefName := chain.map Prod.fst

/-- Extends a chain by `name` and, when links are followed, by what it leads to. -/
def discoverFrom (refs : References) (store : Store) (packed : Packed) (resolveOld : Bool) (chain : Observed)
    (name : RefName) : Except ReferenceError Observed :=
  if name ∈ chain.names then .error (.cycle name)
  else
    match readLocked refs store packed name with
    | .error error => .error error
    | .ok (some (.symbolic next)) =>
      if resolveOld then
        if chain.length + 1 > 32 then .error (.depth 32)
        else discoverFrom refs store packed resolveOld (chain ++ [(name, some (.symbolic next))]) next
      else .ok (chain ++ [(name, some (.symbolic next))])
    | .ok target => .ok (chain ++ [(name, target)])
termination_by 32 - chain.length
decreasing_by
  rw [List.length_append, List.length_singleton]
  omega

variable (refs : References) (store : Store) (packed : Packed)

def discoverChain (identity : LogIdentity)
    (edit : RefEdit) : Except ReferenceError Observed :=
  let resolveOld := identity = .resolved ∧ (edit.dereference = .follow ∨ edit.reflog.appendFields.isSome = true)
  discoverFrom refs store packed resolveOld [] edit.name

/-- The chain of the new value of an edit that is logged. -/
def discoverTarget (edit : RefEdit) :
    Except ReferenceError Observed :=
  match edit.target with
  | some (.symbolic target) =>
    if edit.reflog.appendFields.isSome then do
      let chain ← discoverChain refs store packed .resolved ⟨target, .follow, none, .any, .preserve⟩
      reject (edit.name ∈ chain.names) (.cycle edit.name)
      pure chain
    else .ok []
  | _ => .ok []

structure Plan where
  chain : Observed
  newChain : Observed

abbrev NameSet := OrdMap Bytes RefName

def nameSet (names : List RefName) : NameSet := .insertAll .empty (names.map (fun name => (name.bytes, name)))

def claimName (names : NameSet) (name : RefName) : Except ReferenceError NameSet := do
  reject (names.contains name.bytes = true ∨
    (names.insert name.bytes name).values.any (fun other => conflicts name.bytes other.bytes))
    (.conflict (refs.path name))
  pure (names.insert name.bytes name)

def planEdit (identity : LogIdentity)
    (state : List Plan × NameSet) (edit : RefEdit) : Except ReferenceError (List Plan × NameSet) := do
  let chain ← discoverChain refs store packed identity edit
  let newChain ← discoverTarget refs store packed edit
  let names ← (nameSet (chain.names ++ newChain.names)).values.foldlM (claimName refs) state.2
  pure (state.1 ++ [⟨chain, newChain⟩], names)

def logId (format : ObjectFormat) (target : Option Target) (identity : LogIdentity) :
    Except ReferenceError ObjectId :=
  match target with
  | none => .ok (ObjectId.null format)
  | some (.direct id) => .ok id
  | some (.symbolic _) =>
    if identity = .stored then .ok (ObjectId.null format)
    else .error (.unsupported "stored symbolic edits with reflogs")

def encodeLog (old new : ObjectId) (committer : Signature) (message : Bytes) : Except ReferenceError Bytes := do
  requireFormat old.format new
  Reflog.validate committer message
  pure (idText old ++ ascii " " ++ idText new ++ committer.encode ++ ascii "\t" ++ message ++ [newline])

structure Operation where
  name : RefName
  target : Option Target
  packedRemoved : Bool
  deleteLog : Bool
  logs : List (RefName × Bytes)

/-- The value an edit replaces, under the name that stores it. Chains are never empty. -/
def Plan.actual (plan : Plan) (edit : RefEdit) : RefName × Option Target :=
  if edit.dereference = .follow then plan.chain.getLast?.getD (edit.name, none)
  else plan.chain.head?.getD (edit.name, none)

def Plan.logged (plan : Plan) (edit : RefEdit) : List RefName :=
  if edit.dereference = .follow then plan.chain.names else plan.chain.names.take 1

/-- The value a log entry of the edit names as new. -/
def Plan.newTarget (plan : Plan) (edit : RefEdit) : Option Target :=
  match plan.newChain.getLast? with
  | none => edit.target
  | some (_, value) => value

def appendRecords (identity : LogIdentity) (edit : RefEdit) (plan : Plan) :
    Except ReferenceError (List (RefName × Bytes)) :=
  match edit.reflog.appendFields with
  | none => .ok []
  | some (committer, message) =>
    if edit.reflog.onlyIfChanged = true ∧ (plan.actual edit).2 = edit.target then .ok []
    else do
      let old ← logId refs.format (plan.chain.getLast?.bind Prod.snd) identity
      let new ← logId refs.format (plan.newTarget edit) identity
      let record ← encodeLog old new committer message
      pure ((plan.logged edit).map (fun name => (name, record)))

def checkObserved (observed : RefName × Option Target) : Except ReferenceError Unit := do
  let actual ← readLocked refs store packed observed.1
  checkExpected actual (match observed.2 with | some target => .value target | none => .absent)

def prepareOperation (identity : LogIdentity)
    (edit : RefEdit) (plan : Plan) : Except ReferenceError Operation := do
  (plan.chain ++ plan.newChain).forM (checkObserved refs store packed)
  checkExpected (plan.actual edit).2 edit.expected
  let records ← appendRecords refs identity edit plan
  let name := (plan.actual edit).1
  let deletions := if edit.reflog = .delete then [(name, [])] else []
  pure ⟨name, edit.target, edit.target.isNone && packed.contains name.bytes, edit.reflog = .delete,
    records ++ deletions⟩

/-- Keeps the logs that exist when the policy of an edit asks for it. -/
def Operation.existing (edit : RefEdit) (operation : Operation) : Operation :=
  if edit.reflog.onlyExisting then
    { operation with logs := operation.logs.filter (fun log => (store.logs log.1).isSome) }
  else operation

/-- A log is appended to only after a complete line. -/
def checkAppendTail (name : RefName) : Except ReferenceError Unit :=
  reject (((store.logs name).bind List.getLast?).any (fun last => last ≠ newline))
    (.malformed (refs.reflogPath name) "unterminated reflog append tail; inspect and repair before retry")

def checkAppendTails (operation : Operation) : Except ReferenceError Unit :=
  if operation.deleteLog then .ok ()
  else operation.logs.forM (fun log => checkAppendTail refs store log.1)

structure Prepared where
  replacement : Bytes
  operations : List Operation

def replacementFor (format : ObjectFormat) (bytes : Bytes) (operations : List Operation) : Bytes :=
  (operations.filter Operation.packedRemoved).foldl (fun bytes operation => withoutRef format bytes operation.name)
    bytes

def prepare (refs : References) (identity : LogIdentity) (store : Store) (edits : List RefEdit) :
    Except TransactionError Prepared := do
  let packed ← wrapError (.prepare none) (loadPacked refs store)
  let (plans, names) ← edits.zipIdx.foldlM (fun state (edit, index) =>
    wrapError (.prepare (some index)) (planEdit refs store packed.records identity state edit)) ([], .empty)
  names.values.forM (fun name => wrapError (.prepare none) (checkPackedNamespace refs packed.records name))
  let operations ← (edits.zip plans).zipIdx.mapM (fun ((edit, plan), index) =>
    wrapError (.prepare (some index)) (prepareOperation refs store packed.records identity edit plan))
  let operations := List.zipWith (Operation.existing store) edits operations
  operations.forM (fun operation => wrapError (.prepare none) (checkAppendTails refs store operation))
  let replacement :=
    if operations.any Operation.packedRemoved then replacementFor refs.format packed.bytes operations else []
  pure ⟨replacement, operations⟩

end Girt.Refs.Files
