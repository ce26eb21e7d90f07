import Mathlib.Data.List.TakeWhile
import Girt.Proofs.GlobClass

/-!
# The two glob matchers

Both matchers are read against the language of the compiled tokens. They differ in one place: the
shared matcher takes a double star before an escaped slash for a single one.
-/

namespace Girt.Ignore
open ByteLib GlobLib Pieces Wildmatch List

section Compiled

def Token.piece (case : Case) : Token → Piece UInt8
  | .byte exp => .one (equalByte case exp)
  | .any => .one (· != 47)
  | .star => .many (· != 47)
  | .recursive => .many fun _ => true
  | .directories => .upTo (· == 47)
  | .set bits => .one fun b => b != 47 && bits.getLsbD b.toNat

variable {case : Case} {tokens : List Token} {text : Bytes}

lemma charge_eq_ok {work cost : Nat} (h : cost ≤ work) : charge work cost = .ok (work - cost) := by
  rw [charge, if_pos h]

end Compiled

section Shared

variable {tokens : List Token} {pre : Option UInt8} {text : Bytes}

/-- A run of stars at the start of a component, directly before an escaped slash. -/
def RunBeforeEscape (pre : Option UInt8) (taken after : Bytes) : Prop :=
  (pre = none ∨ pre = some 47) ∧ ∃ n more, taken = replicate (n + 2) 42 ∧ after = 92 :: 47 :: more

/-- The first token of a pattern, read from the bytes `taken`, and the tokens of the rest. -/
inductive Reading (pre : Option UInt8) (pat : Bytes) : List Token → Prop
  | cons {token : Token} {taken after : Bytes} {tokens : List Token} (split : pat = taken ++ after)
    (nonempty : taken ≠ []) (rest : tokensFrom .sensitive taken.getLast? after = some tokens)
    (run : token = .recursive → after = [] ∨ RunBeforeEscape pre taken after) : Reading pre pat (token :: tokens)

lemma Reading.of_map {token : Token} {pat after : Bytes} (taken : Bytes)
    (hsplit : pat = taken ++ after) (hne : taken ≠ [])
    (h : (tokensFrom .sensitive taken.getLast? after).map (token :: ·) = some tokens)
    (hrun : token = .recursive → after = [] ∨ RunBeforeEscape pre taken after) :
    Reading pre pat tokens := by
  obtain ⟨tokens', htokens, rfl⟩ := Option.map_eq_some_iff.mp h
  exact .cons hsplit hne htokens hrun

variable {L : Language UInt8} {row : List Bool}

end Shared

section Engines

variable {tokens : List Token} {text : Bytes}

end Engines

end Girt.Ignore
