import Girt.Refs.Name

/-!
# Reftable records

The decoded contents of one immutable table and the budgets for reading it.
-/

namespace Girt.Refs.Reftable
open ByteLib

inductive Error where
  | malformed (reason : String)
  | unsupported (reason : String)
  | limit (what : String)
  deriving DecidableEq

def validRecordName (bytes : Bytes) : Bool :=
  validRefName bytes || (!bytes.isEmpty && bytes.all (fun b => (65 ≤ b && b ≤ 90) || b == 95))

/-- A table key name, including uppercase pseudorefs. -/
@[ext] structure RecordName where
  bytes : Bytes
  valid : validRecordName bytes = true
  deriving DecidableEq

namespace RecordName

def new (bytes : Bytes) : Except Error RecordName :=
  if valid : validRecordName bytes = true then .ok ⟨bytes, valid⟩
  else .error (.malformed "table record name")

def referenceName (name : RecordName) : Option RefName := RefName.new name.bytes

def ofRefName (name : RefName) : RecordName :=
  ⟨name.bytes, by simp [validRecordName, name.valid]⟩

lemma new_eq_ok {bytes : Bytes} {name : RecordName} :
    new bytes = .ok name ↔ name.bytes = bytes := by
  constructor
  · intro h
    unfold new at h
    split at h
    · cases h
      rfl
    · cases h
  · rintro rfl
    simp [new, name.valid]

end RecordName

/-- A stored reference, or a deletion that hides older stack entries. -/
@[ext] structure RefRecord where
  name : RecordName
  updateIndex : UInt64
  target : Option Target
  peeled : Option ObjectId
  deriving DecidableEq

@[ext] structure LogValue where
  old : ObjectId
  new : ObjectId
  name : Bytes
  email : Bytes
  seconds : UInt64
  offsetMinutes : Int16
  message : Bytes
  deriving DecidableEq

/-- A reflog entry or deletion at one reference and transaction index. -/
@[ext] structure LogRecord where
  name : RecordName
  updateIndex : UInt64
  value : Option LogValue
  deriving DecidableEq

@[ext] structure Table where
  format : ObjectFormat
  minUpdateIndex : UInt64
  maxUpdateIndex : UInt64
  references : List RefRecord
  logs : List LogRecord
  deriving DecidableEq

structure Limits where
  bytes : UInt64
  blockBytes : UInt64
  records : UInt64
  stringBytes : UInt64
  decodedBytes : UInt64

namespace Limits

def default : Limits :=
  ⟨64 * 1024 * 1024, 0xffffff, 1000000, 1024 * 1024, 128 * 1024 * 1024⟩

end Limits

/-! The signed decimal `HHMM` field of a log record. -/
namespace Timezone

def encode (minutes : Int16) : Except Error Bytes :=
  let hhmm := minutes.toInt.tdiv 60 * 100 + minutes.toInt.tmod 60
  if -32768 ≤ hhmm ∧ hhmm ≤ 32767 then .ok (beBytes 2 (hhmm % 65536).toNat)
  else .error (.unsupported "reflog timezone exceeds signed HHMM field")

def decode (bytes : Bytes) : Int16 :=
  let hhmm := (Int16.ofNat (beNat bytes)).toInt
  Int16.ofInt (hhmm.tdiv 100 * 60 + hhmm.tmod 100)

lemma hhmm_nonneg {m : Int} (hm : 0 ≤ m) :
    (m.tdiv 60 * 100 + m.tmod 60).tdiv 100 * 60 + (m.tdiv 60 * 100 + m.tmod 60).tmod 100 = m := by
  rw [Int.tdiv_eq_ediv_of_nonneg hm, Int.tmod_eq_emod_of_nonneg hm]
  have hdig : 0 ≤ m / 60 * 100 + m % 60 := by omega
  rw [Int.tdiv_eq_ediv_of_nonneg hdig, Int.tmod_eq_emod_of_nonneg hdig]
  omega

lemma hhmm_digits (m : Int) :
    (m.tdiv 60 * 100 + m.tmod 60).tdiv 100 * 60 + (m.tdiv 60 * 100 + m.tmod 60).tmod 100 = m := by
  rcases le_or_gt 0 m with hm | hm
  · exact hhmm_nonneg hm
  · have hneg := hhmm_nonneg (m := -m) (by omega)
    have hsum : (-m).tdiv 60 * 100 + (-m).tmod 60 = -(m.tdiv 60 * 100 + m.tmod 60) := by
      rw [Int.neg_tdiv, Int.neg_tmod]
      ring
    rw [hsum, Int.neg_tdiv, Int.neg_tmod] at hneg
    linarith

lemma toInt_stored {hhmm : Int} (hlo : -32768 ≤ hhmm) (hhi : hhmm ≤ 32767) :
    (Int16.ofNat (beNat (beBytes 2 (hhmm % 65536).toNat))).toInt = hhmm := by
  rw [beNat_beBytes_mod, Int16.toInt_ofNat', Int.bmod_def, Int16.size]
  omega

/-- Every offset the encoder accepts is read back from its two bytes. -/
theorem decode_encode {minutes : Int16} {bytes : Bytes} (h : encode minutes = .ok bytes) :
    decode bytes = minutes ∧ bytes.length = 2 := by
  unfold encode at h
  dsimp only at h
  split at h
  · rename_i hrg
    cases h
    refine ⟨?_, by simp⟩
    unfold decode
    dsimp only
    rw [toInt_stored hrg.1 hrg.2, hhmm_digits, Int16.ofInt_toInt]
  · cases h

end Timezone

end Girt.Refs.Reftable
