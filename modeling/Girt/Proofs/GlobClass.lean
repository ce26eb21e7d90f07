import Girt.Ignore.Pattern

/-!
# Bracket classes

Both matchers read the same classes, and the same bytes of them.
-/

namespace Girt.Ignore
open ByteLib GlobLib Pieces Wildmatch List

section Splitting

variable {rest after : Bytes}

end Splitting

section Members

end Members

section Agreement

variable {rest tail taken after body : Bytes} {neg : Bool} {bits : BitVec 256}

section Steps

variable {neg first : Bool} {bits : BitVec 256} {rest : Bytes}

end Steps

/-- What the two matchers make of the members that are left: the compiled class is the set of bytes
that the members have, and it is invalid where they name an unknown class. -/
def SameMembers (neg : Bool) (bits : BitVec 256) (rest tail : Bytes) (compiled : Option (BitVec 256 × Bytes)) :
    Prop :=
  ∃ members, rest = members ++ tail ∧
    match compiled with
    | none => ∀ byte found, classMembers byte byte found members = none
    | some (final, after) => tail = 93 :: after ∧ ∀ byte,
      (classMembers byte byte (bits.getLsbD byte.toNat) members).map (· != neg) = some (final.getLsbD byte.toNat)

lemma SameMembers.cons {bits' : BitVec 256}
    {compiled : Option (BitVec 256 × Bytes)}
    (hstep : ∀ mems, after = mems ++ tail → ∀ byte fnd, ∃ hit : Bool,
      classMembers byte byte fnd (taken ++ mems) = classMembers byte byte (fnd || hit) mems ∧
        (bits'.getLsbD byte.toNat = (bits.getLsbD byte.toNat || hit)))
    (h : SameMembers neg bits' after tail compiled) :
    SameMembers neg bits (taken ++ after) tail compiled := by
  obtain ⟨mems, haf, h⟩ := h
  refine ⟨taken ++ mems, by rw [haf, append_assoc], ?_⟩
  cases compiled with
  | none =>
    intro byte fnd
    obtain ⟨hit, hmem, -⟩ := hstep mems haf byte fnd
    rw [hmem]
    exact h byte _
  | some pair =>
    refine ⟨h.1, fun byte => ?_⟩
    obtain ⟨hit, hmem, hbits⟩ := hstep mems haf byte (bits.getLsbD byte.toNat)
    rw [hmem, ← hbits]
    exact h.2 byte

/-- What the two matchers make of a class from some byte on. -/
def Agrees (neg : Bool) (bits : BitVec 256) (rest : Bytes) (compiled : Option (BitVec 256 × Bytes)) :
    Option Bytes → Prop
  | none => compiled = none
  | some tail => SameMembers neg bits rest tail compiled

end Agreement

end Girt.Ignore
