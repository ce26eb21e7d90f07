import Girt.Proofs.CommitGraph

/-!
# Identities of a commit

A valid signature is read back from the identity that it is written as.
-/

namespace Girt
open ByteLib Pieces DecimalLib Refs.Files Proofs List
open UInt8 (ofNat)
open Signature (encode isAsciiWhitespace twoDigits validComponent validate)

section Numbers

lemma ascii_toString (n : Nat) : ascii (toString n) = digits n := by
  rw [ascii, Nat.toString_eq_repr, Nat.toList_repr]
  rfl

lemma ascii_toString_int (n : Int) :
    ascii (toString n) = if 0 ≤ n then digits n.toNat else 45 :: digits (-n).toNat := by
  rw [Int.toString_eq_repr, Int.repr_eq_if]
  split
  · exact ascii_toString _
  · rw [← ascii_toString]
    simp [ascii]

lemma digit_ne {b : UInt8} (h : isDigit b) : b ≠ 43 ∧ b ≠ 45 ∧ isAsciiWhitespace b = false := by
  simp only [isDigit, Bool.and_eq_true, decide_eq_true_eq] at h
  refine ⟨?_, ?_, ?_⟩
  · rintro rfl
    exact absurd h.1 (by decide)
  · rintro rfl
    exact absurd h.1 (by decide)
  · refine not_whitespace fun hle => ?_
    exact absurd (h.1.trans hle) (by decide)

def IsSign (sign : Bytes) : Prop := sign = [] ∨ sign = [43] ∨ sign = [45]

lemma signedDecimal_append {sign ds rest : Bytes} (hsign : IsSign sign) (hne : ds ≠ [])
    (hds : ∀ b ∈ ds, isDigit b) (hrest : ∀ b ∈ rest.head?, isDigit b = false) :
    signedDecimal (sign ++ ds ++ rest) = some (sign ++ ds, rest) := by
  have hnum : (ds ++ rest).takeWhile isDigit = ds := by
    rw [takeWhile_append_of_pos hds]
    cases rest with
    | nil => simp
    | cons b rest => simp [hrest b rfl]
  have hhead : (if (sign ++ ds ++ rest).head? = some 43 ∨
    (sign ++ ds ++ rest).head? = some 45 then 1 else 0) =
      sign.length := by
    obtain ⟨b, ds, rfl⟩ := exists_cons_of_ne_nil hne
    have hb := digit_ne (hds b (.head _))
    rcases hsign with rfl | rfl | rfl <;> simp [hb.1, hb.2.1]
  unfold signedDecimal
  simp only [hhead]
  have hdrop : (sign ++ ds ++ rest).drop sign.length = ds ++ rest := by
    rw [append_assoc, drop_left]
  rw [hdrop, hnum, if_pos (length_pos_iff.mpr hne), splitAt_eq, take_left' (by simp),
    drop_left' (by simp)]

lemma trimAsciiStart_cons {b : UInt8} {rest : Bytes} (h : isAsciiWhitespace b = false) :
    trimAsciiStart (32 :: b :: rest) = b :: rest := by
  have hsp : isAsciiWhitespace 32 := by decide
  simp [trimAsciiStart, hsp, h]

lemma signedValue_toString (n : Int) : signedValue (ascii (toString n)) = n := by
  rw [ascii_toString_int]
  split
  · obtain ⟨b, ds, hds⟩ := exists_cons_of_ne_nil (digits_ne_nil n.toNat)
    have hb := digit_ne (isDigit_of_mem_digits (n := n.toNat) (hds ▸ mem_cons_self))
    have hval := value_digits n.toNat
    rw [hds] at hval ⊢
    simp only [signedValue, head?_cons, Option.some.injEq, hb.1, hb.2.1, if_false, hval]
    omega
  · simp only [signedValue, head?_cons, if_true, drop_succ_cons, drop_zero, value_digits]
    omega

lemma twoDigits_eq {n : Nat} (h : n < 100) :
    twoDigits n = [ofNat (48 + n / 10), ofNat (48 + n % 10)] := by
  unfold twoDigits
  split
  · rename_i hlt
    rw [ascii_toString, digits_of_lt hlt, Nat.div_eq_of_lt hlt, Nat.mod_eq_of_lt hlt]
    rfl
  · rw [ascii_toString, digits_of_lt_hundred (by omega) h]

end Numbers

section Identities

variable {signature : Signature}

/-- The date of a signature, after the bracket that closes the email. -/
def dateText (signature : Signature) : Bytes :=
  32 :: ascii (toString signature.seconds.toInt) ++ 32 :: (if signature.offsetMinutes < 0 then [45] else [43]) ++
    Signature.twoDigits (signature.offsetMinutes.toInt.natAbs / 60) ++
    Signature.twoDigits (signature.offsetMinutes.toInt.natAbs % 60)

lemma encode_eq (signature : Signature) :
    signature.encode =
      32 :: (signature.name ++ 32 :: 60 :: (signature.email ++ 62 :: dateText signature)) := by
  have hmin : ascii "-" = [45] := by decide
  have hplus : ascii "+" = [43] := by decide
  have hsp : ascii " " = [32] := by decide
  have hopen : ascii " <" = [32, 60] := by decide
  have hclo : ascii "> " = [62, 32] := by decide
  simp [encode, dateText, hmin, hplus, hsp, hopen, hclo]

lemma validComponent_iff {comp : Bytes} :
    validComponent comp ↔ comp ≠ [] ∧
      (∀ b ∈ comp, b ≠ 0 ∧ b ≠ 13 ∧ b ≠ 10 ∧ b ≠ 60 ∧ b ≠ 62) ∧
      (∀ b ∈ comp.head?, isAsciiWhitespace b = false) ∧
      ∀ b ∈ comp.getLast?, isAsciiWhitespace b = false := by
  simp only [validComponent, Bool.not_eq_true', Bool.or_eq_false_iff, isEmpty_eq_false_iff,
    any_eq_false, Bool.or_eq_true, beq_iff_eq, not_or, Option.any_eq_false, and_assoc, ne_eq]
  rfl

lemma validate_eq_ok :
    signature.validate = .ok () ↔ validComponent signature.name ∧
      validComponent signature.email ∧ -1439 ≤ signature.offsetMinutes ∧
        signature.offsetMinutes ≤ 1439 := by
  unfold validate
  rw [bind_ok]
  simp only [reject_ok, not_or, Bool.not_eq_false, not_not]
  constructor
  · rintro ⟨_, ⟨hname, hema⟩, hlow, hhigh⟩
    exact ⟨hname, hema, hlow, hhigh⟩
  · rintro ⟨hname, hema, hlow, hhigh⟩
    exact ⟨(), ⟨hname, hema⟩, hlow, hhigh⟩

lemma parse_identity (h : signature.validate = .ok ()) :
    IdentityRef.parse (signature.name ++ 32 :: 60 :: (signature.email ++ 62 :: dateText signature)) =
      .ok ⟨signature.name, signature.email, dateText signature⟩ := by
  obtain ⟨hname, hema, -⟩ := validate_eq_ok.mp h
  obtain ⟨hne, hbs, -, hlast⟩ := validComponent_iff.mp hname
  have hcut : splitOnce (signature.name ++ 32 :: 60 :: (signature.email ++ 62 :: dateText signature)) 60 =
      some (signature.name ++ [32], signature.email ++ 62 :: dateText signature) := by
    refine splitOnce_eq_some.mpr ⟨by simp, ?_⟩
    intro hmem
    rcases mem_append.mp hmem with hmem | hmem
    · exact (hbs 60 hmem).2.2.2.1 rfl
    · exact absurd hmem (by decide)
  have hrest : splitOnce (signature.email ++ 62 :: dateText signature) 62 =
      some (signature.email, dateText signature) := by
    refine splitOnce_eq_some.mpr ⟨rfl, fun hmem => ?_⟩
    exact ((validComponent_iff.mp hema).2.1 62 hmem).2.2.2.2 rfl
  have htrim : trimAsciiEnd (signature.name ++ [32]) = signature.name := by
    unfold trimAsciiEnd
    rw [rdropWhile_concat_pos _ _ _ (by decide), rdropWhile_eq_self_iff]
    intro hne
    rw [hlast _ (getLast?_eq_some_getLast hne)]
    decide
  simp only [IdentityRef.parse, hcut, hrest, htrim]

lemma zoneMinutes_offset {offset : Int16} (hlow : -1439 ≤ offset.toInt) (hhigh : offset.toInt ≤ 1439) :
    zoneMinutes (if offset < 0 then -((offset.toInt.natAbs / 60 * 100 + offset.toInt.natAbs % 60 : Nat) : Int)
      else ((offset.toInt.natAbs / 60 * 100 + offset.toInt.natAbs % 60 : Nat) : Int)) = some offset := by
  have hzero : offset < 0 ↔ offset.toInt < 0 := Int16.lt_iff_toInt_lt
  have hm : offset.toInt.natAbs % 60 < 60 := Nat.mod_lt _ (by decide)
  generalize hoff : offset.toInt.natAbs = n at hm ⊢
  have hdiv : ((n / 60 * 100 + n % 60 : Nat) : Int).tdiv 100 = (n / 60 : Nat) := by
    rw [Int.tdiv_eq_ediv_of_nonneg (by omega)]
    omega
  have hmod : ((n / 60 * 100 + n % 60 : Nat) : Int).tmod 100 = (n % 60 : Nat) := by
    rw [Int.tmod_eq_emod_of_nonneg (by omega)]
    omega
  unfold zoneMinutes
  split
  · rename_i hneg
    rw [Int.neg_tdiv, Int.neg_tmod, hdiv, hmod]
    have htot : -((n / 60 : Nat) : Int) * 60 + -((n % 60 : Nat) : Int) = offset.toInt := by
      have := hzero.mp hneg
      omega
    rw [htot, if_pos (by omega), Int16.ofInt_toInt]
  · rename_i hnon
    rw [hdiv, hmod]
    have htot : ((n / 60 : Nat) : Int) * 60 + ((n % 60 : Nat) : Int) = offset.toInt := by
      have := mt hzero.mpr hnon
      omega
    rw [htot, if_pos (by omega), Int16.ofInt_toInt]

/-- A sign, and the hours and minutes of a zone. -/
def zoneText (offset : Int16) : Bytes :=
  (if offset < 0 then [45] else [43]) ++ (Signature.twoDigits (offset.toInt.natAbs / 60) ++
    Signature.twoDigits (offset.toInt.natAbs % 60))

lemma zoneText_parts {offset : Int16} (hlow : -1439 ≤ offset.toInt) (hhigh : offset.toInt ≤ 1439) :
    ∃ sign ds, zoneText offset = [sign] ++ ds ∧ (sign = 43 ∨ sign = 45) ∧ ds.length = 4 ∧ (∀ b ∈ ds, isDigit b) ∧
      signedValue (zoneText offset) =
        if offset < 0 then -((offset.toInt.natAbs / 60 * 100 + offset.toInt.natAbs % 60 : Nat) : Int)
        else ((offset.toInt.natAbs / 60 * 100 + offset.toInt.natAbs % 60 : Nat) : Int) := by
  have hn : offset.toInt.natAbs ≤ 1439 := by omega
  have hdg : ∀ d : Fin 10, isDigit (ofNat (48 + d)) ∧ (ofNat (48 + d)).toNat - 48 = d := by decide
  have hall : ∀ d, d < 10 → isDigit (ofNat (48 + d)) ∧ (ofNat (48 + d)).toNat - 48 = d :=
    fun d hd => hdg ⟨d, hd⟩
  unfold zoneText
  generalize offset.toInt.natAbs = n at hn ⊢
  have hh := twoDigits_eq (show n / 60 < 100 by omega)
  have hm := twoDigits_eq (show n % 60 < 100 by omega)
  have d1 := hall (n / 60 / 10) (by omega)
  have d2 := hall (n / 60 % 10) (by omega)
  have d3 := hall (n % 60 / 10) (by omega)
  have d4 := hall (n % 60 % 10) (by omega)
  have hds : ∀ b ∈ [ofNat (48 + n / 60 / 10), ofNat (48 + n / 60 % 10), ofNat (48 + n % 60 / 10),
      ofNat (48 + n % 60 % 10)], isDigit b := by
    simp only [forall_mem_cons, not_mem_nil, false_implies, implies_true, and_true]
    exact ⟨d1.1, d2.1, d3.1, d4.1⟩
  have hval : value [ofNat (48 + n / 60 / 10), ofNat (48 + n / 60 % 10), ofNat (48 + n % 60 / 10),
      ofNat (48 + n % 60 % 10)] = n / 60 * 100 + n % 60 := by
    simp only [value, foldl_cons, foldl_nil, d1.2, d2.2, d3.2, d4.2]
    omega
  rw [hh, hm]
  by_cases hneg : offset < 0
  · simp only [if_pos hneg]
    exact ⟨45, _, rfl, .inr rfl, rfl, hds, congrArg (fun v : Nat => -(v : Int)) hval⟩
  · simp only [if_neg hneg]
    exact ⟨43, _, rfl, .inl rfl, rfl, hds, congrArg (fun v : Nat => (v : Int)) hval⟩

lemma toString_parts (n : Int) :
    ∃ sign ds, ascii (toString n) = sign ++ ds ∧ IsSign sign ∧ ds ≠ [] ∧ ∀ b ∈ ds, isDigit b := by
  rw [ascii_toString_int]
  split
  · exact ⟨[], _, rfl, .inl rfl, digits_ne_nil _, fun _ => isDigit_of_mem_digits⟩
  · exact ⟨[45], _, rfl, .inr (.inr rfl), digits_ne_nil _, fun _ => isDigit_of_mem_digits⟩

lemma dateText_eq (signature : Signature) : dateText signature =
    32 :: (ascii (toString signature.seconds.toInt) ++ 32 :: zoneText signature.offsetMinutes) := by
  simp [dateText, zoneText]

lemma trimAsciiStart_dateText (signature : Signature) : trimAsciiStart (dateText signature) =
    ascii (toString signature.seconds.toInt) ++ 32 :: zoneText signature.offsetMinutes := by
  obtain ⟨pre, num, htext, hbf, hnum, hdig⟩ := toString_parts signature.seconds.toInt
  obtain ⟨b, tail, hcons, hb⟩ : ∃ b tail, ascii (toString signature.seconds.toInt) = b :: tail ∧
      isAsciiWhitespace b = false := by
    obtain ⟨first, num, rfl⟩ := exists_cons_of_ne_nil hnum
    rcases hbf with rfl | rfl | rfl
    · exact ⟨first, num, htext, (digit_ne (hdig first (.head _))).2.2⟩
    · exact ⟨43, first :: num, htext, by decide⟩
    · exact ⟨45, first :: num, htext, by decide⟩
  rw [dateText_eq, hcons]
  exact trimAsciiStart_cons hb

variable (h : signature.validate = .ok ())
include h

lemma offset_bounds :
    -1439 ≤ signature.offsetMinutes.toInt ∧ signature.offsetMinutes.toInt ≤ 1439 := by
  obtain ⟨-, -, hlow, hhigh⟩ := validate_eq_ok.mp h
  rw [Int16.le_iff_toInt_le] at hlow hhigh
  exact ⟨hlow, hhigh⟩

lemma le_of_mem_dateText {b : UInt8} (hb : b ∈ dateText signature) : 32 ≤ b := by
  obtain ⟨pre, num, htext, hbf, -, hdig⟩ := toString_parts signature.seconds.toInt
  obtain ⟨sign, ds, hzone, hsign, -, hds, -⟩ := zoneText_parts (offset_bounds h).1 (offset_bounds h).2
  have hle : ∀ b, isDigit b → 32 ≤ b := by
    intro b hb
    simp only [isDigit, Bool.and_eq_true, decide_eq_true_eq] at hb
    exact le_trans (show (32 : UInt8) ≤ 48 by decide) hb.1
  rw [dateText_eq, htext, hzone] at hb
  simp only [mem_cons, mem_append, not_mem_nil, or_false] at hb
  rcases hb with rfl | (hb | hb) | rfl | rfl | hb
  · decide
  · rcases hbf with rfl | rfl | rfl <;> simp_all
  · exact hle b (hdig b hb)
  · decide
  · rcases hsign with rfl | rfl <;> decide
  · exact hle b (hds b hb)

lemma date_text (name email : Bytes) :
    IdentityRef.date ⟨name, email, dateText signature⟩ =
      .ok (signature.seconds, signature.offsetMinutes) := by
  obtain ⟨hlow, hhigh⟩ := offset_bounds h
  obtain ⟨sign, ds, hzone, hsign, hfour, hds, hval⟩ := zoneText_parts hlow hhigh
  have hne : ds ≠ [] := ne_nil_of_length_pos (by omega)
  have hsp : isAsciiWhitespace sign = false := by
    rcases hsign with rfl | rfl <;> decide
  obtain ⟨before, number, htext, hbf, hnum, hdig⟩ := toString_parts signature.seconds.toInt
  have hcut : signedDecimal (ascii (toString signature.seconds.toInt) ++
    32 :: zoneText signature.offsetMinutes) =
      some (ascii (toString signature.seconds.toInt), 32 :: zoneText signature.offsetMinutes) := by
    rw [htext]
    refine signedDecimal_append hbf hnum hdig ?_
    rintro _ ⟨⟩
    decide
  have hrg : parseWithin (-2 ^ 63) (2 ^ 63 - 1) (ascii (toString signature.seconds.toInt)) =
      some signature.seconds.toInt := by
    have hmin := signature.seconds.le_toInt
    have hmax := signature.seconds.toInt_lt
    simp only [parseWithin, signedValue_toString]
    rw [if_pos (by omega)]
  have hzon : trimAsciiStart (32 :: zoneText signature.offsetMinutes) =
      zoneText signature.offsetMinutes := by
    rw [hzone]
    exact trimAsciiStart_cons hsp
  have hznS : signedDecimal (zoneText signature.offsetMinutes) =
      some (zoneText signature.offsetMinutes, []) := by
    have hpar := @signedDecimal_append [sign] ds []
      (by rcases hsign with rfl | rfl <;> simp [IsSign]) hne hds
      (by simp)
    rw [append_nil, ← hzone] at hpar
    exact hpar
  have hznH : ¬((zoneText signature.offsetMinutes).head? ≠ some 43 ∧
      (zoneText signature.offsetMinutes).head? ≠ some 45) := by
    rw [hzone]
    rcases hsign with rfl | rfl <;> simp
  have hznV : parseWithin (-2 ^ 31) (2 ^ 31 - 1) (zoneText signature.offsetMinutes) =
      some (signedValue (zoneText signature.offsetMinutes)) := by
    rw [parseWithin, if_pos]
    rw [hval]
    split <;> omega
  simp only [IdentityRef.date, trimAsciiStart_dateText, hcut, hrg, hzon, if_neg hznH, hznS,
    Option.bind_some,
    hznV, hval, zoneMinutes_offset hlow hhigh, Int64.ofInt_toInt]

lemma signature_identity :
    IdentityRef.signature ⟨signature.name, signature.email, dateText signature⟩ =
      .ok signature := by
  rw [IdentityRef.signature, date_text h]
  rfl

end Identities

end Girt
