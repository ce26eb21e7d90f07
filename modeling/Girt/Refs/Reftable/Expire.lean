import Mathlib.Data.Finset.Card
import Girt.Refs.Reftable.Stack

/-!
# Expiring log entries

A stack is rewritten as one table of its live records without the selected log entries. The old
tables stay until the new list is synchronized, so an interrupted expiry leaves a stack behind.
-/

namespace Girt.Refs.Reftable
open ByteLib

inductive ExpireStackError where
  | changed
  | failed (source : ReferenceError) (publicationUncertain durable : Bool)

structure ExpiredStack where
  retained : List Bytes
  removed : List Bytes
  published : List (Bytes × Bytes)

/-- The steps that can fail once the new table is written, in order. A publication that fails may
have replaced the list. -/
inductive ExpireStep where
  | keep
  | publish (visible : Bool)
  | sync
  | cleanup
  deriving DecidableEq

/-- The entries to drop from a stack that must be the expected one. The new table is named with one
of the suffixes, the step `stop` fails, and the old files for which `removed` holds are unlinked. -/
structure Expiry where
  expected : Snapshot
  keys : Finset LogKey
  suffixes : List UInt32
  stop : Option ExpireStep
  removed : Bytes → Bool

/-- The live records without the log entries under `keys`. -/
def Table.without (table : Table) (keys : Finset LogKey) : Table :=
  { table with
    references := table.references.filter (fun r => r.target.isSome)
    logs := table.logs.filter (fun r => r.value.isSome && r.key ∉ keys) }

variable (codec : Codec) (format : ObjectFormat) (limits : StackLimits) (dir : StackDir) (expiry : Expiry)

/-- The checks of an expiry, then the name and the contents of its table. No error of its own
stands for a stack that is not the expected one. -/
def prepareExpiry : Except (Option ReferenceError) (Bytes × Bytes) := do
  let snapshot ← wrapError some (Snapshot.read codec dir format limits)
  reject (snapshot.names ≠ expiry.expected.names ∨ snapshot.table ≠ expiry.expected.table) none
  let table := snapshot.table.without expiry.keys
  reject (snapshot.table.live.logs.length - table.logs.length ≠ expiry.keys.card) none
  let bytes ← wrapError (some ∘ .reftable) (table.encode codec.zlib codec.crc32 limits.records)
  let name ← wrapError some (createTableFile dir table expiry.suffixes)
  reject (dir.list = none) (some (.io tablesList))
  pure (name, bytes)

def expireLogs : StackDir × Except ExpireStackError ExpiredStack :=
  match prepareExpiry codec format limits dir expiry with
  | .error none => (dir, .error .changed)
  | .error (some source) => (dir, .error (.failed source false false))
  | .ok (name, bytes) =>
    let old := expiry.expected.names
    let kept : StackDir := { dir with file := fun other => if other = name then some bytes else dir.file other }
    let published : StackDir := { kept with list := some (joinLines [name]) }
    let cleaned : StackDir := { published with
      file := fun other => if other ∈ old ∧ expiry.removed other then none else kept.file other }
    let io : ReferenceError := .io tablesList
    if expiry.stop = some .keep then (kept, .error (.failed io false false))
    else if (joinLines [name]).length > limits.listBytes.toNat then
      (kept, .error (.failed (.reftable (.limit "stack list bytes")) false false))
    else
      -- From here on a reader may see the new list.
      match expiry.stop with
      | some (.publish visible) => (if visible then published else kept, .error (.failed io true false))
      | some .sync => (published, .error (.failed io true false))
      | some .cleanup => (cleaned, .error (.failed io true true))
      | _ => (cleaned, .ok ⟨old.filter (!expiry.removed ·), old.filter expiry.removed,
        [(name, bytes), (tablesList, joinLines [name])]⟩)

end Girt.Refs.Reftable
