import Girt.Remote.Refspec

/-!
# Pruning under a budget

Pruning looks for the source of every local reference and counts each step, each comparison and each
name it builds against limits. It is stopped by a limit or by cancellation, which is polled every 64
steps.
-/

namespace Girt.Remote
open ByteLib Girt.Refs

structure MappingLimits where
  maxSources : Nat
  maxSpecs : Nat
  maxInputBytes : Nat
  maxMappings : Nat
  maxOutputBytes : Nat
  maxWork : Nat

def MappingLimits.default : MappingLimits :=
  ⟨1000000, 4096, 128 * 1024 * 1024, 1000000, 256 * 1024 * 1024, 1024 * 1024 * 1024⟩

/-- What is left of the limits. `cancel` is what the polls that are still to come will see. -/
structure Budget where
  cancel : Nat → Bool
  remaining : Nat
  mappings : Nat
  bytes : Nat
  work : Nat

abbrev Budgeted := StateT Budget (Except MappingError)

def debit (remaining amount : Nat) (what : String) : Except MappingError Nat :=
  if amount ≤ remaining then .ok (remaining - amount) else .error (.limit what)

namespace Budget

def poll : Budgeted Unit := fun budget =>
  if budget.cancel 0 then .error .cancelled else .ok ((), { budget with cancel := fun n => budget.cancel (n + 1) })

def debitWork (amount : Nat) : Budgeted Unit := fun budget => do
  let work ← debit budget.work amount "comparison work"
  pure ((), { budget with work := work })

def tick : Budgeted Unit := fun budget =>
  if budget.remaining - 1 = 0 then (do poll; modify (fun budget => { budget with remaining := 64 }) : Budgeted Unit) budget
  else .ok ((), { budget with remaining := budget.remaining - 1 })

def step : Budgeted Unit := do
  debitWork 1
  tick

def comparison (pattern name : Bytes) : Budgeted Unit := do
  step
  debitWork pattern.length
  debitWork name.length

def report (amount : Nat) : Budgeted Unit := fun budget => do
  let mappings ← debit budget.mappings 1 "mapping attempts"
  let bytes ← debit budget.bytes amount "output bytes"
  pure ((), { budget with mappings := mappings, bytes := bytes })

def new (limits : MappingLimits) (cancel : Nat → Bool) : Except MappingError Budget :=
  if cancel 0 then .error .cancelled
  else .ok ⟨fun n => cancel (n + 1), 64, limits.maxMappings, limits.maxOutputBytes, limits.maxWork⟩

end Budget

open Budget

/-- The counterpart of `sourceForDestination`, which counts what it compares and builds. -/
def reverseSource (spec : Refspec) (destination : RefName) : Budgeted (Option Bytes) :=
  if spec.negative then pure none
  else
    match spec.destination with
    | none => pure none
    | some pattern => do
      comparison pattern destination.bytes
      match capturedBy pattern destination.bytes with
      | none => pure none
      | some capture => do
        comparison spec.source capture
        match starAt spec.source with
        | some star => do
          -- The length is computed without overflow before the name is built.
          if spec.source.length = 0 ∨ usizeMax < spec.source.length - 1 + capture.length then
            throw (.limit "output bytes")
          report (spec.source.length - 1 + capture.length)
          pure (some (substituted spec.source star capture))
        | none => do
          report spec.source.length
          pure (some spec.source)

/-- Counts the bytes of names against the limit on the input. -/
def countInput : Nat → List Bytes → Budgeted Unit
  | _, [] => pure ()
  | left, name :: rest => do
    step
    let left ← (debit left name.length "input bytes" : Except MappingError Nat)
    countInput left rest

def admitInput (limits : MappingLimits) (specs : Refspecs) (count : Nat) (names : List Bytes) : Budgeted Unit := do
  if limits.maxSources < count then throw (.limit "sources")
  if limits.maxSpecs < specs.specs.length then throw (.limit "refspecs")
  countInput limits.maxInputBytes (specs.specs.map (fun spec => spec.raw) ++ names)

def collectAdvertised : List AdvertisedRef → Budgeted (List Bytes)
  | [] => pure []
  | reference :: rest => do
    step
    if reference.kind = .tip then
      comparison [] reference.name.bytes
      let advertised ← collectAdvertised rest
      pure (reference.name.bytes :: advertised)
    else collectAdvertised rest

def isExcluded (source : Bytes) : List Refspec → Budgeted Bool
  | [] => pure false
  | negative :: rest => do
    step
    if !negative.negative then isExcluded source rest
    else do
      comparison negative.source source
      if (negative.capture source).isSome then pure true else isExcluded source rest

/-- Whether refspecs own a destination, and whether a source protects it. -/
def ownership (specs : Refspecs) (advertised retained : List Bytes) (destination : RefName) :
    List Refspec → Bool → Budgeted (Bool × Bool)
  | [], owned => pure (owned, false)
  | spec :: rest, owned => do
    step
    match ← reverseSource spec destination with
    | none => ownership specs advertised retained destination rest owned
    | some source => do
      if ← isExcluded source specs.specs then ownership specs advertised retained destination rest owned
      else do
        comparison [] source
        if advertised.contains source || retained.contains source then pure (true, true)
        else ownership specs advertised retained destination rest true

def pruneLoop (specs : Refspecs) (advertised retained : List Bytes) : List RefName → Budgeted (List RefName)
  | [] => pure []
  | destination :: rest => do
    step
    let (owned, isProtected) ← ownership specs advertised retained destination specs.specs false
    let pruned ← pruneLoop specs advertised retained rest
    pure (if owned && !isProtected then destination :: pruned else pruned)

def pruneCandidates (limits : MappingLimits) (specs : Refspecs) (destinations : List RefName)
    (advertisement : Advertisement)
    (retained : List Bytes) (cancel : Nat → Bool) : Except MappingError (List RefName) := do
  let budget ← Budget.new limits cancel
  reject (specs.direction ≠ .fetch) .direction
  let count := advertisement.refs.length + destinations.length + retained.length
  reject (usizeMax < count) (.limit "sources")
  let names := advertisement.refs.map (fun reference => reference.name.bytes) ++
    destinations.map (fun name => name.bytes) ++ retained
  let (pruned, _) ← (do
    admitInput limits specs count names
    let advertised ← collectAdvertised advertisement.refs
    let pruned ← pruneLoop specs advertised retained destinations
    poll
    pure pruned : Budgeted (List RefName)) budget
  pure pruned

end Girt.Remote
