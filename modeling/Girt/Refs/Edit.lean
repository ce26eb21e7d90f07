import Girt.Refs.Reftable.Records

/-!
# Conditional reference edits

The edits a transaction is made of, shared by the files and reftable backends.
-/

namespace Girt

structure Signature where
  name : ByteLib.Bytes
  email : ByteLib.Bytes
  seconds : Int64
  offsetMinutes : Int16
  deriving DecidableEq

namespace Signature

def isAsciiWhitespace (b : UInt8) : Bool := b == 32 || b == 9 || b == 10 || b == 12 || b == 13

def validComponent (component : ByteLib.Bytes) : Bool :=
  !(component.isEmpty
    || component.any (fun b => b == 0 || b == 13 || b == 10 || b == 60 || b == 62)
    || component.head?.any isAsciiWhitespace || component.getLast?.any isAsciiWhitespace)

def valid (s : Signature) : Bool :=
  validComponent s.name && validComponent s.email && (-1439 ≤ s.offsetMinutes && s.offsetMinutes ≤ 1439)

end Signature

end Girt

namespace Girt.Refs
open ByteLib

abbrev Path := Bytes

inductive ReferenceError where
  | reftable (error : Reftable.Error)
  | objectFormat (expected actual : ObjectFormat)
  | io (path : Path)
  | packedDeleted (path : Path)
  | malformed (path : Path) (reason : String)
  | unsupported (what : String)
  | limit (what : String)
  | locked (path : Path)
  | mismatch (actual : Option Target)
  | cycle (name : RefName)
  | depth (limit : Nat)
  | conflict (path : Path)
  | invalidHeadTarget
  | zeroId
  deriving DecidableEq

/-- A precondition on the stored value of the destination. -/
inductive Expected where
  | any
  | absent
  | value (target : Target)
  | exists
  | absentOr (target : Target)
  deriving DecidableEq

/-- Whether an edit changes the stored name or the end of its symbolic chain. -/
inductive Dereference where
  | stored
  | follow
  deriving DecidableEq

inductive Reflog where
  | preserve
  | delete
  | append (committer : Signature) (message : Bytes)
  | appendIfChanged (committer : Signature) (message : Bytes)
  | appendExistingIfChanged (committer : Signature) (message : Bytes)
  deriving DecidableEq

namespace Reflog

def appendFields : Reflog → Option (Signature × Bytes)
  | append committer message | appendIfChanged committer message
  | appendExistingIfChanged committer message => some (committer, message)
  | preserve | delete => none

/-- Policies that leave the log alone when the reference keeps its value. -/
def onlyIfChanged : Reflog → Bool
  | appendIfChanged _ _ | appendExistingIfChanged _ _ => true
  | _ => false

/-- The policy that appends only to logs that exist. -/
def onlyExisting : Reflog → Bool
  | appendExistingIfChanged _ _ => true
  | _ => false

end Reflog

structure RefEdit where
  name : RefName
  dereference : Dereference
  target : Option Target
  expected : Expected
  reflog : Reflog
  deriving DecidableEq

def requireFormat (format : ObjectFormat) (id : ObjectId) : Except ReferenceError Unit :=
  reject (id.format ≠ format) (.objectFormat format id.format)

def validateTarget (format : ObjectFormat) : Target → Except ReferenceError Unit
  | .direct id => do
    requireFormat format id
    reject id.isNull .zeroId
  | .symbolic _ => .ok ()

def validateExpected (format : ObjectFormat) : Expected → Except ReferenceError Unit
  | .value (.direct id) | .absentOr (.direct id) => requireFormat format id
  | _ => .ok ()

def Expected.admits (expected : Expected) (actual : Option Target) : Prop :=
  match expected with
  | .any => True
  | .absent => actual = none
  | .value stored => actual = some stored
  | .exists => actual ≠ none
  | .absentOr stored => actual = none ∨ actual = some stored

instance (expected : Expected) (actual : Option Target) : Decidable (expected.admits actual) := by
  cases expected <;> unfold Expected.admits <;> infer_instance

def checkExpected (actual : Option Target) (expected : Expected) : Except ReferenceError Unit :=
  reject (¬ expected.admits actual) (.mismatch actual)

namespace Reflog

def validate (committer : Signature) (message : Bytes) : Except ReferenceError Unit := do
  reject (committer.name.contains 9 ∨ committer.email.contains 9) (.unsupported "tab in reflog identity")
  reject (committer.seconds < 0) (.unsupported "negative reflog timestamp")
  reject (committer.valid = false) (.unsupported "invalid reflog identity or date")
  reject (message.any (fun b => b == 0 || b == 13 || b == 10)) (.unsupported "multiline or NUL reflog message")

end Reflog

def RefEdit.validateNew (format : ObjectFormat) (edit : RefEdit) : Except ReferenceError Unit :=
  match edit.target with
  | none => .ok ()
  | some target => do
    validateTarget format target
    reject (edit.name = RefName.head ∧ target = .symbolic RefName.head) .invalidHeadTarget
    reject (edit.dereference = .follow ∧ target matches .symbolic _)
      (.unsupported "resolved symbolic replacement")

def RefEdit.validateLog (edit : RefEdit) : Except ReferenceError Unit :=
  match edit.reflog.appendFields with
  | some (committer, message) => Reflog.validate committer message
  | none => .ok ()

def validateEdit (format : ObjectFormat) (edit : RefEdit) : Except ReferenceError Unit := do
  validateExpected format edit.expected
  reject (edit.reflog = .delete ∧ edit.target ≠ none) (.unsupported "log deletion requires reference deletion")
  edit.validateNew format
  edit.validateLog

inductive RefOutcome where
  | unchanged
  | packedRemoved
  | published
  deriving DecidableEq

inductive LogOutcome where
  | notAttempted
  | appended
  | deleted
  | failed (bytesWritten : Nat)
  deriving DecidableEq

structure RefEditOutcome where
  name : RefName
  reference : RefOutcome
  logs : List (RefName × LogOutcome)
  deriving DecidableEq

inductive TransactionError where
  | prepare (operation : Option Nat) (source : ReferenceError)
  | publish (outcomes : List RefEditOutcome) (source : ReferenceError)
  deriving DecidableEq

end Girt.Refs
