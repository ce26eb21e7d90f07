import Girt.Retention.Walk

/-!
# Planning what is retained

The roots that were collected, what they reach, and what the packs that stay hold or reach.
-/

namespace Girt.Retention
open ByteLib

section Candidates

inductive PruneCause where
  | io
  | cancelled
  | incomplete (error : RetentionError)
  | packChanged (error : ObjectReadError)
  | changed

def RetentionError.fromPrune : PruneCause → RetentionError
  | .incomplete error => error
  | .cancelled => .cancelled
  | .io => .read .io
  | .packChanged error => .read error
  | .changed => .retentionInputsChanged

structure Candidate where
  id : ObjectId
  path : LoosePath
  len : Nat
  modified : Int
  deriving DecidableEq

def isUtf8 (bytes : Bytes) : Bool := (String.fromUTF8? ⟨bytes.toArray⟩).isSome

def isHexDigit (byte : UInt8) : Bool :=
  48 ≤ byte && byte ≤ 57 || 97 ≤ byte && byte ≤ 102 || 65 ≤ byte && byte ≤ 70

variable (policy : RetentionPolicy) (format : ObjectFormat)

/-- Looks at a file of a fanout directory, given the number of entries seen and the candidates. -/
def candidateFile (fanout : Bytes) (state : Nat × List Candidate) (file : LooseFile) :
    Except PruneCause (Nat × List Candidate) := do
  reject (policy.maxEntries < state.1 + 1) (.incomplete .looseObjectEntryLimit)
  reject (file.regular = false) (.incomplete .nonFileLooseObject)
  reject (isUtf8 file.name = false) (.incomplete .nonUtf8LooseObject)
  match ObjectId.fromHex format (fanout ++ file.name) with
  | none => .error (.incomplete (.malformed .id))
  | some id =>
    if ∃ cutoff ∈ policy.recentCutoff, file.modified ≤ cutoff then
      return (state.1 + 1, state.2 ++ [⟨id, (fanout, file.name), file.len, file.modified⟩])
    else return (state.1 + 1, state.2)

def candidateEntry (state : Nat × List Candidate) (entry : DirEntry) :
    Except PruneCause (Nat × List Candidate) := do
  reject (policy.maxEntries < state.1 + 1) (.incomplete .looseObjectEntryLimit)
  match entry with
  | .pack _ _ => return (state.1 + 1, state.2)
  | .other name isDir files =>
    if name = ascii "info" then return (state.1 + 1, state.2)
    else
      reject (isUtf8 name = false) (.incomplete .nonUtf8ObjectFanout)
      reject (name.length ≠ 2 ∨ name.all isHexDigit = false) (.incomplete .unknownObjectDirectoryEntry)
      reject (isDir = false) (.incomplete .nonDirectoryObjectFanout)
      files.foldlM (candidateFile policy format name) (state.1 + 1, state.2)

/-- The old loose files of a store, in the order of their paths. -/
def candidates (store : Store) : Except PruneCause (List Candidate) := do
  let found ← store.entries.foldlM (candidateEntry policy format) (0, [])
  return found.2.insertionSort fun a b => toLex a.path ≤ toLex b.path

end Candidates

section Observation

structure ObservedLog where
  name : Bytes
  seconds : Int
  old : ObjectId
  new : ObjectId

/-- A record of a reflog: the identities that can be recovered from it, and the rest of its fields
when all of it can be read. -/
structure ImportedRecord where
  old : Option ObjectId
  new : Option ObjectId
  seconds : Option Int

def ImportedRecord.recoverableRoots (record : ImportedRecord) : List ObjectId :=
  (record.old.toList ++ record.new.toList).filter fun id => ! id.isNull

/-- A record whose fields can be read has both its identities. -/
def ImportedRecord.observed (record : ImportedRecord) (name : Bytes) : Option ObservedLog :=
  match record.old, record.new, record.seconds with
  | some old, some new, some seconds => some ⟨name, seconds, old, new⟩
  | _, _, _ => none

/-- What was collected before any object is read: all roots, those that do not come from reflogs,
the records of reflogs, and the packs that stay. The roots contain the others. -/
structure Observation where
  roots : IdSet
  strongRoots : IdSet
  logs : List ObservedLog
  protectedPacks : List Bytes
  foldedPacks : List Bytes
  strong_roots : ∀ id, strongRoots.contains id = true → roots.contains id = true
  logs_roots : ∀ log ∈ logs, ∀ id ∈ [log.old, log.new], id.isNull = false → roots.contains id = true

def addIds (ids : IdSet) (new : List ObjectId) : IdSet := ids.insertAll (new.map fun id => (id, ()))

lemma contains_addIds {ids : IdSet} {new : List ObjectId} {id : ObjectId} :
    (addIds ids new).contains id ↔ ids.contains id ∨ id ∈ new := by
  rw [addIds, OrdMap.contains_insertAll, or_comm]
  simp

namespace Observation

def start (policy : RetentionPolicy) : Observation where
  roots := addIds .empty policy.heads
  strongRoots := addIds .empty policy.heads
  logs := []
  protectedPacks := []
  foldedPacks := []
  strong_roots := fun _ h => h
  logs_roots := by simp

/-- Adds the target of a reference, a pseudoref, an index entry or a recent loose object. -/
def addRoot (observation : Observation) (id : ObjectId) : Observation :=
  { observation with
    roots := addIds observation.roots [id]
    strongRoots := addIds observation.strongRoots [id]
    strong_roots := fun other h => by
      rw [contains_addIds] at h ⊢
      exact h.imp_left (observation.strong_roots other)
    logs_roots := fun log hlog other hother hnull =>
      contains_addIds.mpr (.inl (observation.logs_roots log hlog other hother hnull)) }

def addLog (observation : Observation) (name : Bytes) (records : List ImportedRecord) : Observation :=
  { observation with
    roots := addIds observation.roots (records.flatMap ImportedRecord.recoverableRoots)
    logs := observation.logs ++ records.filterMap (ImportedRecord.observed · name)
    strong_roots := fun other h => contains_addIds.mpr (.inl (observation.strong_roots other h))
    logs_roots := fun log hlog other hother hnull => by
      rw [contains_addIds]
      rcases List.mem_append.mp hlog with hlog | hlog
      · exact .inl (observation.logs_roots log hlog other hother hnull)
      · obtain ⟨record, hrecord, hobserved⟩ := List.mem_filterMap.mp hlog
        refine .inr (List.mem_flatMap.mpr ⟨record, hrecord, ?_⟩)
        unfold ImportedRecord.observed at hobserved
        split at hobserved
        · rename_i old new seconds hold hnew hseconds
          cases hobserved
          simp only [ImportedRecord.recoverableRoots, hold, hnew, List.mem_filter]
          exact ⟨by simpa using hother, by simp [hnull]⟩
        · cases hobserved }

end Observation

/-- What the collection of roots comes upon: an object that something names, or a reflog. -/
inductive Found where
  | root (id : ObjectId)
  | log (name : Bytes) (records : List ImportedRecord)

def Observation.add (observation : Observation) : Found → Observation
  | .root id => observation.addRoot id
  | .log name records => observation.addLog name records

variable (policy : RetentionPolicy)

/-- A file of the pack directory: a marker keeps its pack, and a recent pack stays. -/
def recentPackFile (state : Nat × List Bytes) (file : PackFile) : Except RetentionError (Nat × List Bytes) := do
  reject (policy.maxEntries < state.1 + 1) .packEntryLimit
  reject (file.regular = false) (.nonFilePackEntry file.stem)
  if file.extension = some (ascii "keep") then return (state.1 + 1, file.stem :: state.2)
  else if file.extension = some (ascii "pack") ∧ ∀ cutoff ∈ policy.recentCutoff, cutoff ≤ file.modified then
    return (state.1 + 1, file.stem :: state.2)
  else return (state.1 + 1, state.2)

/-- Whether every file with the name of a pack is one that retirement can remove. -/
def isFoldable (files : List PackFile) (stem : Bytes) : Bool :=
  files.all fun file => file.stem ≠ stem ||
    file.extension ∈ [some (ascii "idx"), some (ascii "pack"), some (ascii "rev"), some (ascii "bitmap")]

/-- Treats one indexed pack as storage whose objects are kept elsewhere, or protects it. -/
def foldPack (files : List PackFile) (observation : Observation) (stem : Bytes) : Observation :=
  if isFoldable files stem = false then { observation with protectedPacks := stem :: observation.protectedPacks }
  else if stem ∈ observation.protectedPacks then
    { observation with
      protectedPacks := observation.protectedPacks.filter (· ≠ stem)
      foldedPacks := stem :: observation.foldedPacks }
  else observation

def indexedStems (files : List PackFile) : List Bytes :=
  (files.filter fun file => file.extension = some (ascii "pack") &&
    files.any fun other => other.stem = file.stem && other.extension = some (ascii "idx")).map PackFile.stem

def foldRecentPacks (fold : Bool) (observation : Observation) (files : List PackFile) : Observation :=
  if fold then (indexedStems files).foldl (foldPack files) observation else observation

/-- A loose file: a recent one is a root. -/
def recentFile (format : ObjectFormat) (fanout : Bytes) (state : Nat × Observation) (file : LooseFile) :
    Except RetentionError (Nat × Observation) := do
  reject (policy.maxEntries < state.1 + 1) .looseObjectEntryLimit
  reject (file.regular = false) .nonFileLooseObject
  if ∀ cutoff ∈ policy.recentCutoff, cutoff < file.modified then
    reject (isUtf8 file.name = false) .nonUtf8LooseObject
    match ObjectId.fromHex format (fanout ++ file.name) with
    | none => .error (.malformed .id)
    | some id => return (state.1 + 1, state.2.addRoot id)
  else return (state.1 + 1, state.2)

def recentEntry (format : ObjectFormat) (fold : Bool) (state : Nat × Observation) (entry : DirEntry) :
    Except RetentionError (Nat × Observation) := do
  reject (policy.maxEntries < state.1 + 1) .objectDirectoryEntryLimit
  match entry with
  | .pack isDir files =>
    reject (isDir = false) .nonDirectoryObjectEntry
    let (entries, stems) ← files.foldlM (recentPackFile policy) (state.1 + 1, state.2.protectedPacks)
    return (entries, foldRecentPacks fold { state.2 with protectedPacks := stems } files)
  | .other name isDir files =>
    reject (isDir = false) .nonDirectoryObjectEntry
    reject (isUtf8 name = false) .nonUtf8ObjectFanout
    if name = ascii "info" then return (state.1 + 1, state.2)
    else
      reject (name.length ≠ 2 ∨ name.all isHexDigit = false) .unknownObjectDirectoryEntry
      files.foldlM (recentFile policy format name) (state.1 + 1, state.2)

/-- Recent loose objects are roots, and recent or marked packs stay. -/
def recentObjects (fold : Bool) (store : Store) (format : ObjectFormat) (observation : Observation) :
    Except RetentionError Observation := do
  let found ← store.entries.foldlM (recentEntry policy format fold) (0, observation)
  return found.2

/-- Collects the roots of a repository from what names objects in it. -/
def observeRoots (repo : Repository) (fold : Bool) (founds : List Found) : Except RetentionError Observation := do
  reject (∃ id ∈ policy.heads, id.format ≠ repo.objects.format ∨ id.isNull = true) RetentionError.invalidCallerHead
  reject (policy.maxEntries < policy.heads.length) RetentionError.callerHeadLimit
  reject (policy.partialClone = .refuse ∧ repo.objects.partialClone = true) RetentionError.partialClone
  recentObjects policy fold repo.objects.primary repo.objects.format (founds.foldl Observation.add (.start policy))

end Observation

section Plan

structure RetentionPlan where
  observation : Observation
  reachable : IdSet
  required : IdSet
  protectedObjects : IdSet
  objectInfo : OrdMap ObjectId ObjectInfo
  promisedBoundaries : OrdMap ObjectId ObjectKind

variable (repo : Repository) (policy : RetentionPolicy)

/-- Whether a reflog record expires, given what the other roots reach. -/
def expires (live : IdSet) (log : ObservedLog) : Except RetentionError Bool :=
  match policy.reflogExpiry with
  | .keepAll => .ok false
  | .classifiedCutoffs liveBefore disconnectedBefore =>
    let cutoff := if live.contains log.old || live.contains log.new then liveBefore else disconnectedBefore
    .ok (cutoff.any (log.seconds < ·))
  | .configured cutoffs => do
    let cutoffs ← cutoffs log.name
    let live := (log.old.isNull || live.contains log.old) && (log.new.isNull || live.contains log.new)
    return cutoffs.general.any (log.seconds < ·) || (! live && cutoffs.unreachable.any (log.seconds < ·))

/-- The identities of records that do not expire become required roots. -/
def requireLog (live : IdSet) (roots : IdSet) (log : ObservedLog) : Except RetentionError IdSet := do
  let expired ← expires policy live log
  if expired then return roots else return addIds roots ([log.old, log.new].filter fun id => ! id.isNull)

def retainedPacks (observation : Observation) : List Bytes := observation.protectedPacks ++ observation.foldedPacks

/-- The objects of retained packs, and those of them whose edges are still to be followed. -/
structure Inventory where
  objects : IdSet
  roots : IdSet
  objectInfo : OrdMap ObjectId ObjectInfo

def locateKnown (objectInfo : OrdMap ObjectId ObjectInfo) (id : ObjectId) :
    Except RetentionError (Option (ObjectKind × Nat)) :=
  match objectInfo.get id with
  | some info => .ok (some (info.kind, info.size))
  | none => wrapError RetentionError.read (repo.objects.locate id)

def inventoryObject (required : IdSet) (inventory : Inventory) (id : ObjectId) :
    Except RetentionError Inventory := do
  match ← locateKnown repo inventory.objectInfo id with
  | none => .error .missingProtectedObject
  | some (kind, size) =>
    let objects := addIds inventory.objects [id]
    reject (policy.maxEntries < objects.entries.length) RetentionError.protectedPackedObjectLimit
    if kind = .blob then
      return { inventory with
        objects := objects
        objectInfo := if inventory.objectInfo.contains id then inventory.objectInfo
          else inventory.objectInfo.insert id ⟨kind, size⟩ }
    -- what is required is closed, and it is kept as well
    else if required.contains id then return { inventory with objects := objects }
    else return { inventory with objects := objects, roots := addIds inventory.roots [id] }

/-- A retained pack without an index has to be absent. -/
def checkIndexed (store : Store) (stem : Bytes) : Except RetentionError Unit :=
  reject ((∀ pack ∈ store.packs, pack.stem ≠ stem) ∧
    ∃ file ∈ store.packFiles, file.stem = stem ∧ file.extension = some (ascii "pack")) .missingProtectedIndex

def inventoryPacks (observation : Observation) (required : IdSet) (objectInfo : OrdMap ObjectId ObjectInfo) :
    Except RetentionError Inventory := do
  observation.protectedPacks.forM (checkIndexed repo.objects.primary)
  wrapError RetentionError.read repo.objects.checksums
  let retained := repo.objects.primary.packs.filter fun pack => pack.stem ∈ retainedPacks observation
  (retained.flatMap FilePack.identities).foldlM (inventoryObject repo policy required) ⟨.empty, .empty, objectInfo⟩

/-- The objects of retained packs and what they reach, when anything may be deleted. -/
def protectObjects (observation : Observation) (required : IdSet) (objectInfo : OrdMap ObjectId ObjectInfo)
    (boundaries : Boundaries) : Except RetentionError Walked := do
  let found ← wrapError RetentionError.fromPrune (candidates policy repo.objects.format repo.objects.primary)
  let old := repo.objects.primary.packs.any fun pack => pack.stem ∉ observation.protectedPacks
  if (found ≠ [] ∨ old = true) ∧ retainedPacks observation ≠ [] then
    let inventory ← inventoryPacks repo policy observation required objectInfo
    let walked ← walk repo policy inventory.roots inventory.objectInfo boundaries
    return { walked with reachable := addIds inventory.objects (walked.reachable.entries.map Prod.fst) }
  else return ⟨.empty, objectInfo, boundaries⟩

/-- What is reachable from the roots, unless an equal set was walked. -/
def walkUnless (known : IdSet) (reachable : Walked) (roots : IdSet) (last : Walked) :
    Except RetentionError Walked :=
  if roots.entries = known.entries then .ok { last with reachable := reachable.reachable }
  else walk repo policy roots last.objectInfo last.boundaries

/-- What the required roots reach, unless all roots or the strong ones are the same. -/
def walkRequired (observation : Observation) (reached live : Walked) (requiredRoots : IdSet) :
    Except RetentionError Walked :=
  if requiredRoots.entries = observation.roots.entries then .ok { live with reachable := reached.reachable }
  else walkUnless repo policy observation.strongRoots live requiredRoots live

def isBlob (objectInfo : OrdMap ObjectId ObjectInfo) (id : ObjectId) : Bool :=
  (objectInfo.get id).any fun info => info.kind = .blob

/-- A complete plan, or the first reason why there is none. (After a walk from the required or the
protected roots fails, the code goes on, and a later reason replaces the first.) -/
def planRetention (fold : Bool) (founds : List Found) : Except RetentionError RetentionPlan := do
  let observation ← observeRoots policy repo fold founds
  wrapError RetentionError.read repo.objects.indexes
  let reached ← walk repo policy observation.roots .empty (.new policy repo.objects)
  let live ← walkUnless repo policy observation.roots reached observation.strongRoots reached
  let requiredRoots ← observation.logs.foldlM (requireLog policy live.reachable) observation.strongRoots
  let required ← walkRequired repo policy observation reached live requiredRoots
  let kept ← protectObjects repo policy observation required.reachable required.objectInfo required.boundaries
  wrapError RetentionError.read (repo.objects.blobKinds (isBlob kept.objectInfo))
  wrapError RetentionError.read repo.objects.unchanged
  return {
    observation := observation
    reachable := reached.reachable
    required := required.reachable
    protectedObjects := kept.reachable
    objectInfo := kept.objectInfo
    promisedBoundaries := kept.boundaries.found }

end Plan

end Girt.Retention
