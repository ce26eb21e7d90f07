import Girt.Retention.Plan

/-!
# Removing unreachable loose objects

Old loose files are listed, a complete plan is made, the list is made again, and then the files that
the plan does not keep are removed one by one.
-/

namespace Girt.Retention
open ByteLib

/-- What a removal that reports an error has done. -/
inductive Removal where
  | removed
  | failed (gone : Bool)

/-- What the file system and the caller do while one candidate is dealt with. -/
structure Attempt where
  cancelled : Bool
  metadata : Bool
  packs : Except ObjectReadError Unit
  removal : Removal

structure PruneFailure where
  cause : PruneCause
  deleted : List ObjectId
  uncertain : Option ObjectId

/-- A run: the repository it leaves, and the identities it reports as deleted or why it stopped. -/
structure PruneRun where
  repo : Repository
  result : Except PruneFailure (List ObjectId)

def Repository.removeFile (repo : Repository) (path : LoosePath) : Repository :=
  { repo with objects := { repo.objects with primary := repo.objects.primary.removeFile path } }

def pruneCandidates (plan : RetentionPlan) (attempt : Nat → Attempt) (repo : Repository) (deleted : List ObjectId) :
    Nat → List Candidate → PruneRun
  | _, [] => ⟨repo, .ok deleted⟩
  | index, candidate :: rest =>
    let stop (cause : PruneCause) : PruneRun := ⟨repo, .error ⟨cause, deleted, none⟩⟩
    if (attempt index).cancelled then stop .cancelled
    else if plan.reachable.contains candidate.id || plan.protectedObjects.contains candidate.id then
      pruneCandidates plan attempt repo deleted (index + 1) rest
    else if (attempt index).metadata then stop .io
    else
      match repo.objects.primary.fileAt candidate.path with
      | none => stop .io
      | some file =>
        if file.regular = false ∨ file.len ≠ candidate.len ∨ file.modified ≠ candidate.modified then stop .changed
        else
          match (attempt index).packs with
          | .error error => stop (.packChanged error)
          | .ok () =>
            match (attempt index).removal with
            | .removed =>
              pruneCandidates plan attempt (repo.removeFile candidate.path) (deleted ++ [candidate.id]) (index + 1) rest
            | .failed gone =>
              ⟨if gone then repo.removeFile candidate.path else repo,
                .error ⟨.io, deleted, some candidate.id⟩⟩

/-- What the checks around a plan find: opening the repository again, the flag of the caller and the
fingerprints of what the plan was made from. -/
structure PruneChecks where
  before : Except PruneCause Unit
  session : Except RetentionError Unit
  after : Except PruneCause Unit

variable (policy : RetentionPolicy)

/-- The plan of a session, whose inputs are compared with what they were before it. -/
def sessionPlan (repo : Repository) (fold : Bool) (founds : List Found) (checks : PruneChecks) :
    Except RetentionError RetentionPlan := do
  reject (repo.objects.partialClone = true) RetentionError.partialClone
  let plan ← planRetention repo policy fold founds
  checks.session
  return plan

/-- The plan of a session whose reflog records have expired, as maintenance goes on with it. -/
def RetentionPlan.expire (plan : RetentionPlan) : RetentionPlan :=
  { plan with
    reachable := plan.required
    observation := { plan.observation with
      roots := plan.observation.strongRoots
      logs := []
      strong_roots := fun _ h => h
      logs_roots := by simp } }

/-- The plan of a session that was given, or of a new one. -/
def planOf (repo : Repository) (session : Option RetentionPlan) (founds : List Found) (checks : PruneChecks) :
    Except PruneCause RetentionPlan :=
  match session with
  | some plan => .ok plan
  | none => wrapError PruneCause.incomplete (sessionPlan policy repo false founds checks)

/-- What is known before the first removal: the candidates and the plan, or no candidates. -/
def preparePrune (repo : Repository) (session : Option RetentionPlan) (founds : List Found) (checks : PruneChecks) :
    Except PruneCause (Option (List Candidate × RetentionPlan)) := do
  checks.before
  reject (repo.objects.partialClone = true) (.incomplete .partialClone)
  let observed ← candidates policy repo.objects.format repo.objects.primary
  if session.isNone ∧ observed = [] then return none
  else
    let plan ← planOf policy repo session founds checks
    checks.after
    let repeated ← candidates policy repo.objects.format repo.objects.primary
    reject (observed ≠ repeated) .changed
    return some (observed, plan)

/-- Removes the old loose objects of a repository that the plan does not keep. -/
def prunePlanned (repo : Repository) (session : Option RetentionPlan) (founds : List Found) (checks : PruneChecks)
    (attempt : Nat → Attempt) : PruneRun :=
  match preparePrune policy repo session founds checks with
  | .error cause => ⟨repo, .error ⟨cause, [], none⟩⟩
  | .ok none => ⟨repo, .ok []⟩
  | .ok (some (observed, plan)) => pruneCandidates plan attempt repo [] 0 observed

end Girt.Retention
