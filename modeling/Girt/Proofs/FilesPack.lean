import Girt.Proofs.FilesPublish
import Girt.Refs.Files.Pack

/-!
# Packing changes no visible value

The locks keep every value visible through any interleaving with other processes.
-/

namespace Girt.Proofs
open ByteLib Pieces Girt.Refs Girt.Refs.Files List
open RefName (bytes)
open Function (update update_of_ne)
open OrdMap (get_insert)
open Change (run)

section Records

variable {fmt : ObjectFormat} {path : Path}
variable {id : ObjectId} {s : PackedScan} {b : UInt8}

end Records

section Packing

variable {digs : Digests} {fmt : ObjectFormat} {objs : Files.Objects digs fmt} {maxTags : Nat}
variable {id peeled : ObjectId} {existing : Packed} {cands : Candidates}

variable (hnull : ∀ kind data, (digs.hashObject fmt kind data).isNull = false)
include hnull

end Packing

section Worlds

variable {digs : Digests} {refs : References} {world world' : World}
variable {store : Files.Store} {candidate : Candidate} {pending : List Candidate} {name : RefName}
variable {bs : Bytes} {write : Option Write}

def HoldsValues (refs : References) (store : Files.Store) (pending : List Candidate) : Prop :=
  ∃ snapshot, loadPacked refs store = .ok snapshot ∧ ∀ candidate ∈ pending,
    candidate.name.perWorktree = false ∧ Packed.target snapshot.records candidate.name = some (.direct candidate.id)

lemma HoldsValues.tail (h : HoldsValues refs store (candidate :: pending)) :
    HoldsValues refs store pending := by
  obtain ⟨snap, hload, hall⟩ := h
  exact ⟨snap, hload, fun c hc => hall c (.tail _ hc)⟩

lemma HoldsValues.congr {a b : Files.Store} (hpack : b.packed = a.packed)
    (h : HoldsValues refs a pending) : HoldsValues refs b pending := by
  unfold HoldsValues loadPacked at h ⊢
  rw [hpack]
  exact h

end Worlds

/-- The digest of the empty blob. Other digests are not recorded. -/
def sampleDigests : Digests where
  digest fmt bytes :=
    if fmt = .sha1 ∧ bytes = objectHeader .blob 0 then
      ⟨fmt, [0xe6, 0x9d, 0xe2, 0x9b, 0xb2, 0xd1, 0xd6, 0x43, 0x4b, 0x8b, 0x29, 0xae, 0x77, 0x5a, 0xd8, 0xc2, 0xe4,
        0x8c, 0x53, 0x91] ++ List.replicate (fmt.digestLen - 20) 0, by cases fmt <;> rfl⟩
    else ⟨fmt, List.replicate fmt.digestLen 1, List.length_replicate⟩
  digest_format fmt bytes := by split_ifs <;> rfl

def emptyBlob : ObjectId := sampleDigests.hashObject .sha1 .blob []

def sampleObjects : Files.Objects sampleDigests .sha1 where
  read id := if id = emptyBlob then some (.blob, []) else none
  verified := by
    intro id kind data h
    split_ifs at h with hid
    cases h
    exact hid

end Girt.Proofs
