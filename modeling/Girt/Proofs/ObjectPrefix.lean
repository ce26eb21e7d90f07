import Girt.Objects.Prefix

/-!
# The identities that match a prefix

They are an interval that starts at the smallest one.
-/

namespace Girt
open ByteLib List

section Nibbles

lemma toNat_high (byte : UInt8) : (byte >>> 4).toNat = byte.toNat / 16 := by
  rw [UInt8.toNat_shiftRight, Nat.shiftRight_eq_div_pow]
  rfl

lemma toNat_low (byte : UInt8) : (byte &&& 15).toNat = byte.toNat % 16 := by
  have hmask : (15 : UInt8).toNat = 2 ^ 4 - 1 := rfl
  rw [UInt8.toNat_and, hmask, Nat.and_two_pow_sub_one_eq_mod]

lemma byte_eq_iff (a b : UInt8) : a = b ↔ a >>> 4 = b >>> 4 ∧ a &&& 15 = b &&& 15 := by
  rw [← UInt8.toNat_inj, ← UInt8.toNat_inj, ← UInt8.toNat_inj, toNat_high, toNat_high, toNat_low,
    toNat_low]
  omega

lemma byte_lt_iff (a b : UInt8) :
    a < b ↔ a >>> 4 < b >>> 4 ∨ a >>> 4 = b >>> 4 ∧ a &&& 15 < b &&& 15 := by
  rw [UInt8.lt_iff_toNat_lt, UInt8.lt_iff_toNat_lt, UInt8.lt_iff_toNat_lt, ← UInt8.toNat_inj,
    toNat_high, toNat_high,
    toNat_low, toNat_low]
  omega

lemma nibbles_injective {a b : Bytes} (h : nibbles a = nibbles b) : a = b := by
  induction a generalizing b with
  | nil =>
    cases b with
    | nil => rfl
    | cons y b => cases h
  | cons x a ih =>
    cases b with
    | nil => cases h
    | cons y b =>
      rw [nibbles_cons, nibbles_cons, cons.injEq, cons.injEq] at h
      rw [(byte_eq_iff x y).mpr ⟨h.1, h.2.1⟩, ih h.2.2]

lemma nibbles_lt_iff {a b : Bytes} : nibbles a < nibbles b ↔ a < b := by
  induction a generalizing b with
  | nil =>
    cases b with
    | nil => exact Iff.rfl
    | cons y b =>
      exact ⟨fun _ => nil_lt_cons _ _, fun _ => nil_lt_cons _ _⟩
  | cons x a ih =>
    cases b with
    | nil =>
      exact ⟨fun h => absurd h (not_lt_nil _), fun h => absurd h (not_lt_nil _)⟩
    | cons y b =>
      rw [nibbles_cons, nibbles_cons, cons_lt_cons_iff, cons_lt_cons_iff, cons_lt_cons_iff, ih,
        byte_lt_iff x y, byte_eq_iff x y]
      tauto

lemma nibbles_le_iff {a b : Bytes} : nibbles a ≤ nibbles b ↔ a ≤ b := by
  rw [← not_lt, ← not_lt, nibbles_lt_iff]

lemma nibbles_take (bs : Bytes) (n : Nat) : (nibbles bs).take (n * 2) = nibbles (bs.take n) := by
  induction n generalizing bs with
  | zero => rw [Nat.zero_mul, take_zero, take_zero]; rfl
  | succ n ih =>
    cases bs with
    | nil => simp [nibbles]
    | cons byte bs =>
      rw [nibbles_cons, take_succ_cons, nibbles_cons, ← ih,
        show (n + 1) * 2 = n * 2 + 1 + 1 by ring, take_succ_cons,
        take_succ_cons]

lemma nibbles_getElem? (bs : Bytes) (n : Nat) :
    (nibbles bs)[n * 2]? = bs[n]?.map fun byte : UInt8 => byte >>> 4 := by
  induction n generalizing bs with
  | zero => cases bs <;> rfl
  | succ n ih =>
    cases bs with
    | nil => simp [nibbles]
    | cons byte bs =>
      rw [nibbles_cons, show (n + 1) * 2 = n * 2 + 1 + 1 by ring, getElem?_cons_succ, getElem?_cons_succ, ih,
        getElem?_cons_succ]

end Nibbles

namespace ObjectIdPrefix

variable {pre : ObjectIdPrefix} {id : ObjectId}

def hex (pre : ObjectIdPrefix) : Bytes := (nibbles pre.lower.bytes).take pre.digits

lemma length_hex (pre : ObjectIdPrefix) : pre.hex.length = pre.digits := by
  rw [hex, length_take, length_nibbles, pre.lower.width, min_eq_left pre.fits]

lemma sameHigh_iff {left right : Option UInt8} (hleft : left.isSome) (hrt : right.isSome) :
    sameHigh left right ↔
      (left.map fun byte : UInt8 => byte >>> 4) = right.map fun byte : UInt8 => byte >>> 4 := by
  cases left with
  | none => cases hleft
  | some a =>
    cases right with
    | none => cases hrt
    | some b => simp [sameHigh]

lemma matchesId_iff :
    pre.matchesId id ↔ id.format = pre.lower.format ∧ pre.hex <+: nibbles id.bytes := by
  unfold matchesId
  rw [decide_eq_true_iff]
  refine and_congr_right fun hform => ?_
  have hlow := pre.lower.width
  have hid := id.width
  rw [hform] at hid
  have hfits := pre.fits
  rw [prefix_iff_eq_take, length_hex, hex]
  rcases Nat.mod_two_eq_zero_or_one pre.digits with heven | hodd
  · have hdig : pre.digits = pre.digits / 2 * 2 := by omega
    simp only [heven, true_or, and_true]
    conv_rhs => rw [hdig, nibbles_take, nibbles_take]
    exact ⟨fun h => by rw [h], nibbles_injective⟩
  · have hdig : pre.digits = pre.digits / 2 * 2 + 1 := by omega
    have hleft : pre.digits / 2 < pre.lower.bytes.length := by omega
    have hrt : pre.digits / 2 < id.bytes.length := by omega
    have hsome : ∀ {bs : Bytes} (h : pre.digits / 2 < bs.length), (bs[pre.digits / 2]?).isSome := by
      intro bs h
      rw [getElem?_eq_getElem h]
      rfl
    rw [sameHigh_iff (hsome hleft) (hsome hrt)]
    simp only [hodd, one_ne_zero, false_or]
    conv_rhs => rw [hdig, take_add_one, take_add_one, nibbles_take, nibbles_take, nibbles_getElem?,
      nibbles_getElem?]
    constructor
    · rintro ⟨htake, hhigh⟩
      rw [htake, hhigh]
    intro h
    have hsame : (nibbles (pre.lower.bytes.take (pre.digits / 2))).length =
        (nibbles (id.bytes.take (pre.digits / 2))).length := by
      rw [length_nibbles, length_nibbles, length_take, length_take]
      omega
    obtain ⟨htake, hlast⟩ := append_inj h hsame
    refine ⟨nibbles_injective htake, ?_⟩
    rw [getElem?_eq_getElem hleft, getElem?_eq_getElem hrt] at hlast ⊢
    simpa using hlast

lemma lower_le_of_matches (h : pre.matchesId id) : pre.lower.bytes ≤ id.bytes := by
  obtain ⟨hform, rest, hrest⟩ := matchesId_iff.mp h
  have hlow : nibbles pre.lower.bytes = pre.hex ++ (nibbles pre.lower.bytes).drop pre.digits :=
    (take_append_drop _ _).symm
  rw [← nibbles_le_iff, hlow, ← hrest]
  have hlen : ((nibbles pre.lower.bytes).drop pre.digits).length = rest.length := by
    have htot := congrArg length hrest
    rw [length_append, length_nibbles, id.width, hform] at htot
    have hhex : pre.hex.length + ((nibbles pre.lower.bytes).drop pre.digits).length =
        pre.lower.bytes.length * 2 := by
      rw [← length_append, ← hlow, length_nibbles]
    rw [pre.lower.width] at hhex
    omega
  -- zeros are not above any other digits
  have hzer : ∀ a b : Bytes, (∀ digit ∈ a, digit = 0) → a.length = b.length → a ≤ b := by
    intro a
    induction a with
    | nil => exact fun b _ _ => not_lt.mp (not_lt_nil _)
    | cons x a ih =>
      intro b hzero hsame
      cases b with
      | nil => cases hsame
      | cons y b =>
        have hx : x = 0 := hzero x (.head _)
        have htail := ih b (fun digit hdg => hzero digit (.tail _ hdg)) (Nat.succ.inj hsame)
        rw [← not_lt, cons_lt_cons_iff, hx, not_or]
        exact ⟨fun hlt => absurd hlt (by rw [UInt8.lt_iff_toNat_lt]; simp),
          fun hlt => absurd hlt.2 (not_lt.mpr htail)⟩
  have happ : ∀ a b c : Bytes, b ≤ c → a ++ b ≤ a ++ c := by
    intro a b c hbc
    induction a with
    | nil => exact hbc
    | cons x a ih => exact cons_le_cons x ih
  exact happ _ _ _ (hzer _ _ pre.padded hlen)

lemma matches_of_le {other : ObjectId} (hform : other.format = pre.lower.format)
    (hlow : pre.lower.bytes ≤ other.bytes) (hle : other.bytes ≤ id.bytes) (h : pre.matchesId id) :
    pre.matchesId other := by
  refine matchesId_iff.mpr ⟨hform, isPrefix_of_le_of_le ?_ (nibbles_le_iff.mpr hle) (matchesId_iff.mp h).2⟩
  calc pre.hex ≤ nibbles pre.lower.bytes := le_of_isPrefix (List.take_prefix _ _)
    _ ≤ nibbles other.bytes := nibbles_le_iff.mpr hlow

lemma headD_of_matches (h : pre.matchesId id) : id.bytes.headD 0 = pre.lower.bytes.headD 0 := by
  obtain ⟨-, htake, -⟩ := of_decide_eq_true h
  have heno := pre.enough
  have hhead : ∀ bs : Bytes, (bs.take (pre.digits / 2)).headD 0 = bs.headD 0 := by
    intro bs
    rw [show pre.digits / 2 = pre.digits / 2 - 1 + 1 by omega]
    cases bs <;> rfl
  rw [← hhead, ← htake, hhead]

end ObjectIdPrefix

end Girt
