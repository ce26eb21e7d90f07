import Girt.Index.Split

/-!
# Building and editing an index

Every operation that changes an index in memory. Each builds a replacement from a copy of the index and
assigns it in its last step. The payloads that the status-cache operations install are checked by
parsers that are not modelled here: the model accepts any payload.
-/

namespace Girt.IndexFile
open ByteLib

namespace Index

variable (index : Index) (limits : Limits)

/-- Refuses an edit when an extension outside `allowed` is present. -/
def refuse (allowed : List Signature) : Except Error Unit :=
  match index.extensions.find? (fun extension => !allowed.contains extension.signature) with
  | some extension => .error (.extensionPreventsEdit extension.signature)
  | none => .ok ()

/-- Keeps the extensions that satisfy `keep` and forgets the original bytes. -/
def retain (keep : Signature → Bool) : Index :=
  { index with
    original := none
    extensions := index.extensions.filter (fun extension => keep extension.signature) }

def push (signature : Signature) (data : Bytes) : Index :=
  { index with extensions := index.extensions ++ [⟨signature, data⟩] }

def fitting : Except Error Index := do
  let _ ← index.encodedLen limits
  .ok index

def markSparse : Index :=
  if index.entries.any (fun entry => entry.mode = .sparseDirectory) then index.push .sdir [] else index

def emptyForOrphan (digests : Digests) (format : ObjectFormat) (version : Version) : Index :=
  { empty format with
    version := version
    extensions := [⟨.tree, 0 :: ascii "0 0\n" ++ (digests.hashObject format .tree []).bytes⟩] }

def new (format : ObjectFormat) (entries : List Entry) (limits : Limits) : Except Error Index := do
  checkCount entries.length limits.maxEntries "entries"
  let entries := sortEntries entries
  validateEntries format entries limits
  let version := if entries.any Entry.extended then Version.v3 else .v2
  fitting (markSparse ⟨format, version, none, entries, []⟩) limits

def knownSignatures : List Signature :=
  [.tree, .untr, .fsmn, .eoie, .ieot, .reuc, .link, .sdir]

def invalidateExtensions (retainTree : Bool) : Except Error Index := do
  index.refuse knownSignatures
  .ok (index.retain (fun signature => signature = .reuc || (retainTree && signature = .tree))).markSparse

def setVersion (version : Version) (limits : Limits) : Except Error Index := do
  reject (version = .v2 ∧ index.entries.any Entry.extended) (.entry 0 "extended flags require v3 or v4")
  if version = index.version then index.fitting limits
  else do
    let replacement ← index.invalidateExtensions (!index.has .link)
    fitting { replacement with version := version } limits

def replaceEntries (entries : List Entry) (limits : Limits) : Except Error Index := do
  checkCount entries.length limits.maxEntries "entries"
  let entries := sortEntries entries
  validateEntries index.format entries limits
  if entries = index.entries then index.fitting limits
  else do
    let version := if index.version = .v2 ∧ entries.any Entry.extended then .v3 else index.version
    let replacement ← invalidateExtensions { index with version := version, original := none, entries := entries } false
    replacement.fitting limits

/-- The new entries, with the stat data of the present ones where nothing else changed. -/
def reusingStat (entries : List Entry) : List Entry :=
  entries.map (fun entry =>
    match index.entries.find? (fun candidate => candidate.key = entry.key) with
    | some previous =>
      if previous.id = entry.id ∧ previous.mode = entry.mode ∧ previous.assumeValid = entry.assumeValid ∧
          previous.intentToAdd = entry.intentToAdd ∧ previous.skipWorktree = entry.skipWorktree then
        { entry with stat := previous.stat }
      else entry
    | none => entry)

def replaceEntriesReusingStat (entries : List Entry) (limits : Limits) : Except Error Index :=
  index.replaceEntries (index.reusingStat entries) limits

def makeStandalone : Except Error Index := do
  index.refuse [.link, .tree, .untr, .fsmn, .eoie, .ieot, .reuc]
  if index.has .link then do
    let replacement ← index.invalidateExtensions false
    replacement.fitting limits
  else index.fitting limits

/-- Offsets into the encoded entries, which any new encoding can move. -/
def isOffset (signature : Signature) : Bool := signature = .eoie || signature = .ieot

def discardOptionalExtensions (signatures : List Signature) (limits : Limits) : Except Error Index :=
  match signatures.find? (fun signature => !signature.optional) with
  | some signature => .error (.mandatoryExtension signature)
  | none =>
    if index.extensions.any (fun extension => signatures.contains extension.signature) then
      -- only the list of extensions changes here; what is encoded is decided below
      let kept := { index with extensions := index.extensions.filter (fun extension =>
        !signatures.contains extension.signature && !isOffset extension.signature) }
      if kept.has .link then kept.makeStandalone limits
      else fitting { kept with original := none } limits
    else .ok index

def invalidateEntryOffsets : Except Error Index := do
  index.refuse [.tree, .reuc, .sdir, .eoie, .ieot, .fsmn, .untr]
  let stale := fun signature => isOffset signature || signature = .fsmn || signature = .untr
  if index.extensions.any (fun extension => stale extension.signature) then
    (index.retain (fun signature => !stale signature)).fitting limits
  else index.fitting limits

def discardResolveUndo : Except Error Index := do
  index.refuse [.tree, .reuc, .fsmn, .untr, .eoie, .ieot]
  if index.has .reuc then
    (index.retain (fun signature => !([.reuc, .fsmn, .untr, .eoie, .ieot] : List Signature).contains signature)).fitting limits
  else index.fitting limits

def invalidateTreeCache : Except Error Index := do
  index.refuse [.tree, .fsmn, .untr, .eoie, .ieot]
  if index.extensions = [] then .ok index
  else (index.retain (fun _ => false)).fitting limits

inductive StatusCache where
  | fsmonitor
  | untracked
  deriving DecidableEq

def StatusCache.signature : StatusCache → Signature
  | fsmonitor => .fsmn
  | untracked => .untr

def replaceStatusCache (cache : StatusCache) (data : Option Bytes) (limits : Limits) :
    Except Error Index := do
  index.refuse [.tree, .reuc, .sdir, .eoie, .ieot, .fsmn, .untr]
  let kept := index.retain (fun signature => signature ≠ cache.signature && !isOffset signature)
  match data with
  | some data => (kept.push cache.signature data).fitting limits
  | none => kept.fitting limits

/-- A cache without identity or directories, which asks for a fresh scan. -/
def emptyUntrackedCache (format : ObjectFormat) : Bytes :=
  List.replicate (1 + 72) 0 ++ beBytes 4 6 ++ List.replicate (2 * format.digestLen) 0 ++
    ascii ".gitignore" ++ [0, 0, 0]

def setUntrackedCacheEnabled (enabled : Bool) (limits : Limits) : Except Error Index := do
  index.refuse [.tree, .reuc, .sdir, .eoie, .ieot, .fsmn, .untr]
  if index.has .untr = enabled then index.fitting limits
  else
    let kept := index.retain (fun signature => signature ≠ .untr && !isOffset signature)
    if enabled then (kept.push .untr (emptyUntrackedCache index.format)).fitting limits else kept.fitting limits

/-- Whether a modification time is at or after the threshold. -/
def racy (threshold time : Timestamp) : Bool :=
  threshold.seconds < time.seconds || (threshold.seconds = time.seconds && threshold.nanoseconds ≤ time.nanoseconds)

def smudge (threshold : Timestamp) (entry : Entry) : Entry :=
  if racy threshold entry.stat.mtime then { entry with stat := { entry.stat with size := 0 } } else entry

/-- The racy rule at every position but those in the sorted list `verified`. -/
def smudgeFrom (threshold : Timestamp) : Nat → List Nat → List Entry → List Entry
  | _, _, [] => []
  | position, verified, entry :: rest =>
    if verified.head? = some position then entry :: smudgeFrom threshold (position + 1) verified.tail rest
    else smudge threshold entry :: smudgeFrom threshold (position + 1) verified rest

def smudgeRacyEntries (threshold : Timestamp) (verified : List Nat) : Index :=
  let entries := smudgeFrom threshold 0 verified index.entries
  if entries = index.entries then index else { index with original := none, entries := entries }

def recordOne (started : UInt32) (entries : List Entry) (verified : Nat × Stat) : List Entry :=
  let stat := if verified.2.mtime.seconds ≥ started then { verified.2 with size := 0 } else verified.2
  entries.modify verified.1 (fun entry => { entry with stat := stat })

def recordStat (verified : List (Nat × Stat)) (started : UInt32) : Index :=
  if verified = [] then index
  else { index with original := none, entries := verified.foldl (recordOne started) index.entries }

def discardCheckoutCaches : Index :=
  index.retain (fun signature => !([.tree, .fsmn, .untr, .eoie, .ieot] : List Signature).contains signature)

def replaceIndex (draft : Index) (limits : Limits) : Except Error Index := do
  reject (draft.format ≠ index.format) (.objectFormat index.format draft.format)
  reject (draft.has .link) (.extensionPreventsEdit .link)
  draft.fitting limits

end Index

inductive Edit where
  | setVersion (version : Version) (limits : Limits)
  | replaceEntries (entries : List Entry) (limits : Limits)
  | replaceEntriesReusingStat (entries : List Entry) (limits : Limits)
  | makeStandalone (limits : Limits)
  | discardOptionalExtensions (signatures : List Signature) (limits : Limits)
  | invalidateEntryOffsets (limits : Limits)
  | discardResolveUndo (limits : Limits)
  | invalidateTreeCache (limits : Limits)
  | replaceStatusCache (cache : Index.StatusCache) (data : Option Bytes) (limits : Limits)
  | setUntrackedCacheEnabled (enabled : Bool) (limits : Limits)
  | smudgeRacyEntries (threshold : Timestamp) (verified : List Nat)
  | recordStat (verified : List (Nat × Stat)) (started : UInt32)
  | discardCheckoutCaches

def Edit.apply (index : Index) : Edit → Except Error Index
  | setVersion version limits => index.setVersion version limits
  | replaceEntries entries limits => index.replaceEntries entries limits
  | replaceEntriesReusingStat entries limits => index.replaceEntriesReusingStat entries limits
  | makeStandalone limits => index.makeStandalone limits
  | discardOptionalExtensions signatures limits => index.discardOptionalExtensions signatures limits
  | invalidateEntryOffsets limits => index.invalidateEntryOffsets limits
  | discardResolveUndo limits => index.discardResolveUndo limits
  | invalidateTreeCache limits => index.invalidateTreeCache limits
  | replaceStatusCache cache data limits => index.replaceStatusCache cache data limits
  | setUntrackedCacheEnabled enabled limits => index.setUntrackedCacheEnabled enabled limits
  | smudgeRacyEntries threshold verified => .ok (index.smudgeRacyEntries threshold verified)
  | recordStat verified started => .ok (index.recordStat verified started)
  | discardCheckoutCaches => .ok index.discardCheckoutCaches

/-- An operation on the index that is held, which is also there after an error. -/
def Edit.perform (edit : Edit) : EStateM Error Index Unit := do
  match edit.apply (← get) with
  | .ok replacement => set replacement
  | .error error => throw error

def Edit.after (index : Index) (edit : Edit) : Index :=
  match edit.perform index with
  | .ok _ index | .error _ index => index

/-- The indexes a program can hold: built, read from a file, or edited. -/
inductive Reachable (digests : Digests) : Index → Prop
  | empty (format : ObjectFormat) : Reachable digests (.empty format)
  | orphan (format : ObjectFormat) (version : Version) : Reachable digests (.emptyForOrphan digests format version)
  | built {format : ObjectFormat} {entries : List Entry} {limits : Limits} {index : Index}
      (h : Index.new format entries limits = .ok index) : Reachable digests index
  | parsed {format : ObjectFormat} {bytes : Bytes} {shared : Option Bytes} {limits : Limits} {index : Index}
      (h : Index.parseWithShared digests format bytes shared limits = .ok index) : Reachable digests index
  | edited {index next : Index} {edit : Edit} (held : Reachable digests index)
      (h : edit.apply index = .ok next) : Reachable digests next
  | replaced {index draft next : Index} {limits : Limits} (held : Reachable digests index)
      (supplied : Reachable digests draft) (h : index.replaceIndex draft limits = .ok next) :
      Reachable digests next

/-- The commit path: racily clean entries are smudged, then the index is encoded. -/
def Index.publish (digests : Digests) (index : Index) (threshold : Timestamp) (verified : List Nat)
    (limits : Limits) : Except Error Bytes :=
  (index.smudgeRacyEntries threshold verified).encode digests limits

end Girt.IndexFile
