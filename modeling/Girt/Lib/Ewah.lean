import Mathlib.Data.List.Basic
import Mathlib.Data.Nat.Bitwise
import Mathlib.Tactic.Common

/-!
# Run-length encoded words

A stream of 64-bit words in which marker words announce a run of equal words and a number of
literal words that follow the marker.
-/

namespace EwahLib

def ones : UInt64 := 0xffffffffffffffff

def bitOf (marker : UInt64) : Bool := (marker &&& 1) ≠ 0

def runOf (marker : UInt64) : Nat := ((marker >>> 1) &&& 0xffffffff).toNat

def literalsOf (marker : UInt64) : Nat := (marker >>> 33).toNat

def fill (bit : Bool) : UInt64 := if bit then ones else 0

def marker (bit : Bool) (run literals : Nat) : UInt64 :=
  (if bit then (1 : UInt64) else 0) ||| (UInt64.ofNat run <<< 1) ||| (UInt64.ofNat literals <<< 33)

section Marker

variable {bit : Bool} {run literals : Nat}

lemma marker_toNat (hrun : run < 2 ^ 32) (hliterals : literals < 2 ^ 31) :
    (marker bit run literals).toNat = bit.toNat + 2 * run + 2 ^ 33 * literals := by
  have hbit : (if bit then (1 : UInt64) else 0).toNat = bit.toNat := by cases bit <;> rfl
  have hshi : (UInt64.ofNat run <<< 1).toNat = 2 ^ 1 * run := by
    have hone : (1 : UInt64).toNat % 64 = 1 := rfl
    rw [UInt64.toNat_shiftLeft, UInt64.toNat_ofNat', hone, Nat.shiftLeft_eq]
    omega
  have hshi' : (UInt64.ofNat literals <<< 33).toNat = 2 ^ 33 * literals := by
    have hpla : (33 : UInt64).toNat % 64 = 33 := rfl
    rw [UInt64.toNat_shiftLeft, UInt64.toNat_ofNat', hpla, Nat.shiftLeft_eq]
    omega
  have hlow : bit.toNat < 2 ^ 1 := by cases bit <;> decide
  rw [marker, UInt64.toNat_or, UInt64.toNat_or, hbit, hshi, hshi', Nat.or_comm, Nat.or_comm bit.toNat,
    ← Nat.two_pow_add_eq_or_of_lt hlow, ← Nat.two_pow_add_eq_or_of_lt (by omega)]
  omega

lemma runOf_eq (word : UInt64) : runOf word = word.toNat / 2 % 2 ^ 32 := by
  have hmask : (0xffffffff : UInt64).toNat = 2 ^ 32 - 1 := rfl
  rw [runOf, UInt64.toNat_and, hmask, Nat.and_two_pow_sub_one_eq_mod, UInt64.toNat_shiftRight,
    Nat.shiftRight_eq_div_pow]
  rfl

lemma literalsOf_eq (word : UInt64) : literalsOf word = word.toNat / 2 ^ 33 := by
  rw [literalsOf, UInt64.toNat_shiftRight, Nat.shiftRight_eq_div_pow]
  rfl

lemma bitOf_eq (word : UInt64) : bitOf word = decide (word.toNat % 2 = 1) := by
  have hand : (word &&& 1).toNat = word.toNat % 2 := by
    exact Nat.and_one_is_mod _
  rw [bitOf, decide_eq_decide, ne_eq, ← UInt64.toNat_inj, hand]
  simp only [UInt64.toNat_zero]
  omega

@[simp] lemma runOf_marker (hrun : run < 2 ^ 32) (hliterals : literals < 2 ^ 31) :
    runOf (marker bit run literals) = run := by
  rw [runOf_eq, marker_toNat hrun hliterals]
  have hlow : bit.toNat < 2 := by cases bit <;> decide
  omega

@[simp] lemma literalsOf_marker (hrun : run < 2 ^ 32) (hliterals : literals < 2 ^ 31) :
    literalsOf (marker bit run literals) = literals := by
  rw [literalsOf_eq, marker_toNat hrun hliterals]
  have hlow : bit.toNat < 2 := by cases bit <;> decide
  omega

@[simp] lemma bitOf_marker (hrun : run < 2 ^ 32) (hliterals : literals < 2 ^ 31) :
    bitOf (marker bit run literals) = bit := by
  rw [bitOf_eq, marker_toNat hrun hliterals]
  cases bit <;> simp <;> omega

end Marker

/-- The words that a stream stands for, if no marker announces more literals than there are. -/
def expand : List UInt64 → Option (List UInt64)
  | [] => some []
  | word :: rest =>
    if literalsOf word ≤ rest.length then
      (expand (rest.drop (literalsOf word))).map fun more =>
        List.replicate (runOf word) (fill (bitOf word)) ++ rest.take (literalsOf word) ++ more
    else none
termination_by stream => stream.length
decreasing_by
  rw [List.length_drop, List.length_cons]
  omega

lemma expand_marker {bit : Bool} {run : Nat} {literals rest more : List UInt64}
    (hrun : run < 2 ^ 32) (hliterals : literals.length < 2 ^ 31) (hrest : expand rest = some more) :
    expand (marker bit run literals.length :: (literals ++ rest)) =
      some (List.replicate run (fill bit) ++ literals ++ more) := by
  rw [expand, literalsOf_marker hrun hliterals, runOf_marker hrun hliterals, bitOf_marker hrun hliterals,
    if_pos (by rw [List.length_append]; omega), List.drop_left' rfl, List.take_left' rfl, hrest]
  rfl

/-- The bitwise sum of words and other words, which end in zeros. -/
def xorWords (words others : List UInt64) : List UInt64 := words.mapIdx fun i word => word ^^^ others.getD i 0

lemma length_xorWords (words others : List UInt64) :
    (xorWords words others).length = words.length := List.length_mapIdx

lemma getElem?_xorWords (words others : List UInt64) (i : Nat) :
    (xorWords words others)[i]? = words[i]?.map fun word => word ^^^ others.getD i 0 := List.getElem?_mapIdx

end EwahLib
