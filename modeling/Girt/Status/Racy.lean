import Girt.Index.Edit

/-!
# Cached stat words and racily clean entries

A scan trusts the stat words in the index instead of reading a file. Working files and the index
file are stamped by a file system that rounds the time of a write down to its granularity, so a
file can change after its words were taken and keep its stamp. The writer of the index smudges
entries that are not old enough; the reader rereads those that are not older than the index.
-/

namespace Girt.Status
open ByteLib IndexFile

def second : Nat := 10 ^ 9

def stamp (granularity t : Nat) : Nat := t / granularity * granularity

def timestamp (t : Nat) : Timestamp := ⟨UInt32.ofNat (t / second), UInt32.ofNat (t % second)⟩

/-- A working file as `stat` and `read` see it. -/
structure WorkFile where
  bytes : Bytes
  mode : Mode
  mtime : Nat
  ctime : Nat
  device : Nat
  inode : Nat
  uid : UInt32
  gid : UInt32
  deriving DecidableEq

/-- The low 32 bits of each value, as the index holds them. -/
def indexStat (file : WorkFile) : Stat :=
  ⟨timestamp file.ctime, timestamp file.mtime, UInt32.ofNat file.device, UInt32.ofNat file.inode, file.uid, file.gid,
    UInt32.ofNat file.bytes.length⟩

structure StatPolicy where
  minimal : Bool
  trustCtime : Bool
  deriving DecidableEq

def StatPolicy.time (policy : StatPolicy) (cached actual : Timestamp) : Bool :=
  if policy.minimal then cached.seconds = actual.seconds else cached = actual

/-- Whether the cached words show the file unchanged, so that it need not be read. -/
def unchanged (policy : StatPolicy) (indexWritten : Option UInt32) (entry : Entry) (file : WorkFile) : Bool :=
  match indexWritten with
  | none => false
  | some written =>
    let actual := indexStat file
    let cached := entry.stat
    entry.stage = .normal && entry.mode = file.mode && cached.size ≠ 0 && cached.size = actual.size &&
      policy.time cached.mtime actual.mtime && (!policy.trustCtime || policy.time cached.ctime actual.ctime) &&
      (policy.minimal || (cached.device = actual.device && cached.inode = actual.inode && cached.uid = actual.uid &&
        cached.gid = actual.gid)) &&
      cached.mtime.seconds < written && cached.ctime.seconds < written

structure Published where
  index : Index
  time : Nat

/-- An index under edit, since its lock was taken, with the positions and words that a scan under
the lock has verified. -/
structure Draft where
  index : Index
  locked : Nat
  verified : List (Nat × Stat)

/-- The file system and the processes that use it. The lock is held while there is a draft, or an
index that is ready to be written; `recorded` remembers every entry whose stat words were taken,
with the time. -/
structure World where
  now : Nat
  files : Bytes → Option WorkFile
  published : Option Published
  draft : Option Draft
  ready : Option Index
  recorded : List (Entry × Nat)

/-- The racy threshold of a commit: the earlier of the previous index's stamp and now. -/
def threshold (granularity : Nat) (world : World) : Timestamp :=
  timestamp (match world.published with
    | some previous => min (stamp granularity previous.time) world.now
    | none => world.now)

def Draft.started (draft : Draft) : UInt32 := UInt32.ofNat (draft.locked / second)

def commitIndex (granularity : Nat) (world : World) (draft : Draft) : Index :=
  draft.index.smudgeRacyEntries (threshold granularity world) []

def commitVerified (granularity : Nat) (world : World) (draft : Draft) : Index :=
  (draft.index.recordStat draft.verified draft.started).smudgeRacyEntries (threshold granularity world)
    (draft.verified.map Prod.fst)

/-- Where an entry of an edited draft comes from: it was there, it carries no size, or its words
were taken from its file. -/
def Origin (world : World) (draft : Draft) (entry : Entry) : Prop :=
  entry ∈ draft.index.entries ∨ entry.stat.size = 0 ∨ ∃ t, (entry, t) ∈ world.recorded

/-- One step of any process. `blob` gives the contents an identity names. -/
inductive Step (granularity : Nat) (blob : ObjectId → Option Bytes) : World → World → Prop
  | tick {world : World} {now : Nat} (hle : world.now ≤ now) (hlt : now < 2 ^ 32 * second) :
      Step granularity blob world { world with now := now }
  | rewrite {world : World} (path : Bytes) (file : WorkFile) (hmtime : file.mtime = stamp granularity world.now)
      (hctime : file.ctime = stamp granularity world.now) :
      Step granularity blob world { world with files := fun p => if p = path then some file else world.files p }
  | remove {world : World} (path : Bytes) :
      Step granularity blob world { world with files := fun p => if p = path then none else world.files p }
  | record {world : World} (entry : Entry) {file : WorkFile} (hfile : world.files entry.path = some file)
      (hstat : entry.stat = indexStat file) (hblob : blob entry.id = some file.bytes) :
      Step granularity blob world { world with recorded := (entry, world.now) :: world.recorded }
  | lock {world : World} {index : Index} (hfree : world.draft = none ∧ world.ready = none)
      (hindex : index.entries = (world.published.map (fun p => p.index.entries)).getD []) :
      Step granularity blob world { world with draft := some ⟨index, world.now, []⟩ }
  | edit {world : World} {draft : Draft} {index : Index} (hdraft : world.draft = some draft)
      (horigin : ∀ entry ∈ index.entries, Origin world draft entry) :
      Step granularity blob world { world with draft := some { draft with index := index, verified := [] } }
  | verify {world : World} {draft : Draft} (position : Nat) {entry : Entry} {file : WorkFile}
      (hdraft : world.draft = some draft) (hentry : draft.index.entries[position]? = some entry)
      (horder : ∀ earlier ∈ draft.verified, earlier.1 < position) (hfile : world.files entry.path = some file)
      (hblob : blob entry.id = some file.bytes) :
      Step granularity blob world
        { world with draft := some { draft with verified := draft.verified ++ [(position, indexStat file)] } }
  | commit {world : World} {draft : Draft} (hdraft : world.draft = some draft) (hverified : draft.verified = []) :
      Step granularity blob world
        { world with draft := none, ready := some (commitIndex granularity world draft) }
  | commitVerified {world : World} {draft : Draft} (hdraft : world.draft = some draft) :
      Step granularity blob world
        { world with draft := none, ready := some (commitVerified granularity world draft) }
  | publish {world : World} {index : Index} (hready : world.ready = some index) :
      Step granularity blob world { world with published := some ⟨index, world.now⟩, ready := none }
  | abort {world : World} : Step granularity blob world { world with draft := none, ready := none }

/-- A world before any index exists, in which every file was stamped by an earlier write. -/
def Initial (granularity : Nat) (world : World) : Prop :=
  world.now < 2 ^ 32 * second ∧ world.published = none ∧ world.draft = none ∧ world.ready = none ∧ world.recorded = [] ∧
    ∀ path file, world.files path = some file → ∃ t ≤ world.now, file.mtime = stamp granularity t

/-- The scan's cutoff: the whole second of the stamp of the index file. -/
def indexWritten (granularity : Nat) (published : Published) : UInt32 :=
  UInt32.ofNat (stamp granularity published.time / second)

end Girt.Status
