import Mathlib.Tactic.Common

/-!
# Decimal numbers in bytes

The digits of a number as bytes, and the number that digits stand for.
-/

namespace DecimalLib

def isDigit (b : UInt8) : Bool := 48 ≤ b && b ≤ 57

def value (bytes : List UInt8) : Nat := bytes.foldl (fun n b => 10 * n + (b.toNat - 48)) 0

def digits (n : Nat) : List UInt8 := (Nat.toDigits 10 n).map fun c => UInt8.ofNat c.toNat

lemma toNat_ofNat_digit {c : Char} (h : c.isDigit) : (UInt8.ofNat c.toNat).toNat = c.toNat := by
  simp only [Char.isDigit, Bool.and_eq_true, decide_eq_true_eq] at h
  have hle : c.toNat ≤ 57 := h.2
  simp only [UInt8.toNat_ofNat']
  omega

lemma isDigit_of_mem_digits {n : Nat} {b : UInt8} (h : b ∈ digits n) : isDigit b := by
  obtain ⟨c, hc, rfl⟩ := List.mem_map.mp h
  have hdg := Nat.isDigit_of_mem_toDigits (by decide) (by decide) hc
  have hnat := toNat_ofNat_digit hdg
  simp only [Char.isDigit, Bool.and_eq_true, decide_eq_true_eq] at hdg
  have hlow : 48 ≤ c.toNat := hdg.1
  have hhigh : c.toNat ≤ 57 := hdg.2
  simp only [isDigit, Bool.and_eq_true, decide_eq_true_eq, UInt8.le_iff_toNat_le, hnat]
  exact ⟨hlow, hhigh⟩

lemma digits_ne_nil (n : Nat) : digits n ≠ [] := by
  simp [digits]

lemma value_digits (n : Nat) : value (digits n) = n := by
  have hfold : ∀ (l : List Char) (start : Nat), (∀ c ∈ l, c.isDigit) →
      (l.map fun c => UInt8.ofNat c.toNat).foldl (fun n b => 10 * n + (b.toNat - 48)) start =
        Nat.ofDigitChars 10 l start := by
    intro l
    induction l with
    | nil => intro start _; simp
    | cons c l ih =>
      intro start h
      rw [List.map_cons, List.foldl_cons, ih _ fun c hc => h c (List.mem_cons_of_mem _ hc),
        Nat.ofDigitChars_cons,
        toNat_ofNat_digit (h c List.mem_cons_self)]
      rfl
  unfold value digits
  rw [hfold _ _ fun c hc => Nat.isDigit_of_mem_toDigits (by decide) (by decide) hc,
    Nat.ofDigitChars_toDigits (by decide) (by decide)]

lemma digits_of_lt {n : Nat} (h : n < 10) : digits n = [UInt8.ofNat (48 + n)] := by
  rw [digits, Nat.toDigits_of_lt_base h, List.map_singleton, Nat.toNat_digitChar_of_lt_ten h]

lemma digits_of_lt_hundred {n : Nat} (h : 10 ≤ n) (hlt : n < 100) :
    digits n = [UInt8.ofNat (48 + n / 10), UInt8.ofNat (48 + n % 10)] := by
  have hten : n / 10 < 10 := by omega
  rw [digits, Nat.toDigits_of_base_le (by decide) h, List.map_append, Nat.toDigits_of_lt_base hten]
  simp [Nat.toNat_digitChar_of_lt_ten hten, Nat.toNat_digitChar_of_lt_ten (Nat.mod_lt n (by decide : 0 < 10))]

end DecimalLib
