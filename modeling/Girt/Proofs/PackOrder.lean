import Girt.Pack.Index

/-!
# The offset order is a sorted permutation

Each key holds an offset above a position, so sorting by its digits sorts positions by offset.
-/

namespace Girt.Pack
open RadixLib List

section Keys

variable {shift offset position : Nat}

lemma key_eq (h : position < 2 ^ shift) :
    offset <<< shift ||| position = 2 ^ shift * offset + position := by
  rw [Nat.two_pow_add_eq_or_of_lt h, Nat.shiftLeft_eq, Nat.mul_comm]

lemma key_position (h : position < 2 ^ shift) :
    (offset <<< shift ||| position) &&& (1 <<< shift - 1) = position := by
  rw [Nat.one_shiftLeft, Nat.and_two_pow_sub_one_eq_mod, key_eq h, Nat.mul_add_mod, Nat.mod_eq_of_lt h]

lemma key_offset (h : position < 2 ^ shift) :
    (offset <<< shift ||| position) >>> shift = offset := by
  rw [Nat.shiftRight_eq_div_pow, key_eq h, Nat.mul_add_div (by positivity), Nat.div_eq_of_lt h,
    Nat.add_zero]

/-- One digit of the part of a key above the shift. -/
def digitOf (shift bits pass key : Nat) : Nat := (key >>> (shift + pass * bits)) &&& (1 <<< bits - 1)

lemma digitOf_eq (shift bits pass key : Nat) :
    digitOf shift bits pass key = (key >>> shift) / 2 ^ (pass * bits) % 2 ^ bits := by
  rw [digitOf, Nat.one_shiftLeft, Nat.and_two_pow_sub_one_eq_mod, Nat.shiftRight_add,
    Nat.shiftRight_eq_div_pow (key >>> shift)]

lemma digitOf_lt (shift bits pass key : Nat) : digitOf shift bits pass key < 1 <<< bits := by
  rw [digitOf_eq, Nat.one_shiftLeft]
  exact Nat.mod_lt _ (by positivity)

lemma mod_le_of_digitsLe {shift bits passes a b : Nat}
    (h : DigitsLe (digitOf shift bits) passes a b) :
    (a >>> shift) % 2 ^ (passes * bits) ≤ (b >>> shift) % 2 ^ (passes * bits) := by
  induction passes with
  | zero => simp [Nat.mod_one]
  | succ passes ih =>
    have hcut : ∀ x : Nat, x % 2 ^ ((passes + 1) * bits) =
        x % 2 ^ (passes * bits) + 2 ^ (passes * bits) * (x / 2 ^ (passes * bits) % 2 ^ bits) := by
      intro x
      rw [Nat.add_mul, Nat.one_mul, Nat.pow_add, Nat.mod_mul]
    rw [hcut, hcut, ← digitOf_eq, ← digitOf_eq]
    rcases h with hlt | ⟨heq, hle⟩
    · have hhigh := Nat.mul_le_mul_left (2 ^ (passes * bits)) (Nat.succ_le_of_lt hlt)
      rw [Nat.mul_succ] at hhigh
      omega
    · rw [heq]
      exact Nat.add_le_add_right (ih hle) _

end Keys

lemma le_foldl_max {offs : List Nat} {offset : Nat} (h : offset ∈ offs) :
    offset ≤ offs.foldl max 0 := by
  have hall : ∀ (l : List Nat) (start : Nat), start ≤ l.foldl max start ∧
      ∀ x ∈ l, x ≤ l.foldl max start := by
    intro l
    induction l with
    | nil => simp
    | cons y l ih =>
      intro start
      obtain ⟨hst, hrest⟩ := ih (max start y)
      exact ⟨(le_max_left _ _).trans hst, forall_mem_cons.mpr ⟨(le_max_right _ _).trans hst, hrest⟩⟩
  exact (hall offs 0).2 offset h

lemma le_passes_mul (bits : Nat) :
    bits ≤ max ((bits + 15) / 16) 1 * ((bits + max ((bits + 15) / 16) 1 - 1) / max ((bits + 15) / 16) 1) := by
  have hpos : 0 < max ((bits + 15) / 16) 1 := lt_max_of_lt_right (by decide)
  generalize max ((bits + 15) / 16) 1 = passes at hpos ⊢
  have hdiv := Nat.div_add_mod (bits + passes - 1) passes
  have hmod := Nat.mod_lt (bits + passes - 1) hpos
  omega

def keysOf (offsets : List Nat) : List Nat := offsets.mapIdx fun position offset => offset <<< offsets.length.size ||| position

lemma length_keysOf (offs : List Nat) : (keysOf offs).length = offs.length := length_mapIdx

lemma mem_keysOf {offs : List Nat} {key : Nat} (h : key ∈ keysOf offs) :
    ∃ position < offs.length, key &&& (1 <<< offs.length.size - 1) = position ∧
      key >>> offs.length.size = offs.getD position 0 := by
  obtain ⟨position, hpos, rfl⟩ := mem_mapIdx.mp h
  have hlt : position < 2 ^ offs.length.size := hpos.trans (Nat.lt_size_self _)
  exact ⟨position, hpos, key_position hlt, by rw [key_offset hlt, getD_eq_getElem _ _ hpos]⟩

lemma positions_keysOf (offs : List Nat) :
    (keysOf offs).map (· &&& (1 <<< offs.length.size - 1)) = List.range offs.length := by
  refine ext_getElem (by rw [length_map, length_keysOf, length_range]) fun i hi hi' => ?_
  have hlt : i < 2 ^ offs.length.size := (length_range ▸ hi').trans (Nat.lt_size_self _)
  simp [keysOf, key_position hlt]

/-- The order is a permutation of the positions, and the offsets along it are sorted. -/
theorem offsetOrder_spec (offs : List Nat) :
    (offsetOrder offs).1.Perm (List.range offs.length) ∧
      (offsetOrder offs).2 = (offsetOrder offs).1.map (offs.getD · 0) ∧
      (offsetOrder offs).2.Pairwise (· ≤ ·) := by
  unfold offsetOrder
  simp only
  split_ifs with hbits
  · exact ⟨perm_insertionSort _ _, rfl, pairwise_map.mpr (pairwise_insertionSort _ _)⟩
  have hcov := le_passes_mul (offs.foldl max 0).size
  generalize max (((offs.foldl max 0).size + 15) / 16) 1 = passes at hcov ⊢
  generalize ((offs.foldl max 0).size + passes - 1) / passes = bits at hcov ⊢
  obtain ⟨hperm, -, hpair⟩ := @passes_spec _ (digitOf offs.length.size bits) (1 <<< bits) (keysOf offs)
    (replicate (keysOf offs).length 0) (fun n key _ => digitOf_lt _ _ _ _) length_replicate passes
  refine ⟨?_, ?_, ?_⟩
  · exact (hperm.map _).trans (.of_eq (positions_keysOf offs))
  · rw [map_map]
    refine map_congr_left fun key hkey => ?_
    obtain ⟨position, -, hpos, hoff⟩ := mem_keysOf (hperm.mem_iff.mp hkey)
    rw [Function.comp_apply, hpos, hoff]
  · refine pairwise_map.mpr (hpair.imp_of_mem fun {a b} ha hb hab => ?_)
    -- no offset has more digits than there are passes
    have hlt : ∀ key ∈ keysOf offs, key >>> offs.length.size < 2 ^ (passes * bits) := by
      intro key hkey
      obtain ⟨position, hpos, -, hoff⟩ := mem_keysOf hkey
      rw [hoff, getD_eq_getElem _ _ hpos]
      calc _ ≤ offs.foldl max 0 := le_foldl_max (getElem_mem _)
        _ < 2 ^ (offs.foldl max 0).size := Nat.lt_size_self _
        _ ≤ 2 ^ (passes * bits) := Nat.pow_le_pow_right (by decide) hcov
    have hle := mod_le_of_digitsLe hab
    rwa [Nat.mod_eq_of_lt (hlt a (hperm.mem_iff.mp ha)),
      Nat.mod_eq_of_lt (hlt b (hperm.mem_iff.mp hb))] at hle

end Girt.Pack
