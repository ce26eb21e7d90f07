import Girt.Objects.Edges

/-!
# Object identity prefixes

A prefix has four hexadecimal digits or more. It is kept as the smallest identity it matches, whose digits
after the prefix are zero.
-/

namespace Girt
open ByteLib Refs.Files

def nibbles (bytes : Bytes) : Bytes := bytes.flatMap fun byte : UInt8 => [byte >>> 4, byte &&& 15]

structure ObjectIdPrefix where
  lower : ObjectId
  digits : Nat
  enough : 4 ≤ digits
  fits : digits ≤ lower.format.digestLen * 2
  padded : ∀ digit ∈ (nibbles lower.bytes).drop digits, digit = 0

lemma nibbles_cons (byte : UInt8) (bytes : Bytes) :
    nibbles (byte :: bytes) = (byte >>> 4) :: (byte &&& 15) :: nibbles bytes :=
  rfl

lemma length_nibbles (bytes : Bytes) : (nibbles bytes).length = bytes.length * 2 := by
  induction bytes with
  | nil => rfl
  | cons byte bytes ih =>
    rw [nibbles_cons, List.length_cons, List.length_cons, List.length_cons, ih]
    ring

namespace ObjectIdPrefix

/-- Whether two bytes are there and have the same high digit. -/
def sameHigh : Option UInt8 → Option UInt8 → Bool
  | some left, some right => left >>> 4 = right >>> 4
  | _, _ => false

def matchesId (pre : ObjectIdPrefix) (id : ObjectId) : Bool :=
  id.format = pre.lower.format ∧ pre.lower.bytes.take (pre.digits / 2) = id.bytes.take (pre.digits / 2) ∧
    (pre.digits % 2 = 0 ∨ sameHigh pre.lower.bytes[pre.digits / 2]? id.bytes[pre.digits / 2]?)

end ObjectIdPrefix

end Girt
