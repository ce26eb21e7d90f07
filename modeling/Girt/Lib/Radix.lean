import Mathlib.Data.List.Basic
import Mathlib.Data.List.GetD
import Mathlib.Data.List.Range
import Mathlib.Tactic.Common

/-!
# Radix sort

A pass counts the keys of each digit, turns the counts into the starts of the digits' slots and moves every
key to the next slot of its digit. Passes from the least significant digit on sort the keys.
-/

namespace RadixLib

open List

variable {α : Type}

section Pass

def tally (digit : α → Nat) (size : Nat) (keys : List α) : List Nat :=
  keys.foldl (fun counts key => counts.modify (digit key) (· + 1)) (List.replicate size 0)

def startsFrom (start : Nat) : List Nat → List Nat
  | [] => []
  | count :: counts => start :: startsFrom (start + count) counts

/-- The next slots of the digits and the keys moved so far. -/
structure Moving (α : Type) where
  slots : List Nat
  scratch : List α

def move (digit : α → Nat) (moving : Moving α) (key : α) : Moving α :=
  ⟨moving.slots.modify (digit key) (· + 1), moving.scratch.set (moving.slots.getD (digit key) 0) key⟩

def pass (digit : α → Nat) (size : Nat) (keys scratch : List α) : List α :=
  (keys.foldl (move digit) ⟨startsFrom 0 (tally digit size keys), scratch⟩).scratch

def bucket (digit : α → Nat) (keys : List α) (d : Nat) : List α := keys.filter (digit · = d)

def below (digit : α → Nat) (keys : List α) (d : Nat) : Nat := (keys.filter (digit · < d)).length

variable {digit : α → Nat} {size : Nat} {keys scratch : List α}

lemma bucket_append (a b : List α) (d : Nat) :
    bucket digit (a ++ b) d = bucket digit a d ++ bucket digit b d :=
  filter_append ..

lemma bucket_cons_self (key : α) (keys : List α) :
    bucket digit (key :: keys) (digit key) = key :: bucket digit keys (digit key) := by
  simp [bucket]

lemma bucket_cons_ne {key : α} {d : Nat} (hd : digit key ≠ d) (keys : List α) :
    bucket digit (key :: keys) d = bucket digit keys d := by
  simp [bucket, hd]

lemma below_succ (digit : α → Nat) (keys : List α) (d : Nat) :
    below digit keys (d + 1) = below digit keys d + (bucket digit keys d).length := by
  unfold below bucket
  induction keys with
  | nil => rfl
  | cons key keys ih =>
    simp only [filter_cons, decide_eq_true_eq, apply_ite length, length_cons]
    split_ifs <;> omega

lemma below_mono (digit : α → Nat) (keys : List α) {d e : Nat} (h : d ≤ e) :
    below digit keys d ≤ below digit keys e := by
  induction e, h using Nat.le_induction with
  | base => exact le_rfl
  | succ e _ ih => exact ih.trans (by rw [below_succ]; exact Nat.le_add_right _ _)

lemma below_add_le {d e : Nat} (h : d < e) :
    below digit keys d + (bucket digit keys d).length ≤ below digit keys e := by
  rw [← below_succ]
  exact below_mono digit keys h

lemma length_foldl_modify (keys : List α) (counts : List Nat) :
    (keys.foldl (fun counts key => counts.modify (digit key) (· + 1)) counts).length =
      counts.length := by
  induction keys generalizing counts with
  | nil => rfl
  | cons key keys ih => rw [foldl_cons, ih, length_modify]

lemma getD_foldl_modify (keys : List α) (counts : List Nat) {d : Nat} (hd : d < counts.length) :
    (keys.foldl (fun counts key => counts.modify (digit key) (· + 1)) counts).getD d 0 =
      counts.getD d 0 + (bucket digit keys d).length := by
  induction keys generalizing counts with
  | nil => rfl
  | cons key keys ih =>
    rw [foldl_cons, ih _ (by rwa [length_modify])]
    have hmod : (counts.modify (digit key) (· + 1)).getD d 0 = if digit key =
        d then counts.getD d 0 + 1 else counts.getD d 0 := by
      rw [getD_eq_getElem?_getD, getElem?_modify, getElem?_eq_getElem hd, getD_eq_getElem _ _ hd]
      split_ifs <;> rfl
    rw [hmod]
    split_ifs with hkey
    · subst hkey
      rw [bucket_cons_self, length_cons]
      omega
    · rw [bucket_cons_ne hkey]

lemma length_startsFrom (start : Nat) (counts : List Nat) :
    (startsFrom start counts).length = counts.length := by
  induction counts generalizing start with
  | nil => rfl
  | cons count counts ih => rw [startsFrom, length_cons, length_cons, ih]

lemma startsFrom_below (digit : α → Nat) (keys : List α) (first n : Nat) :
    startsFrom (below digit keys first) ((List.range' first n).map fun d => (bucket digit keys d).length) =
      (List.range' first n).map (below digit keys) := by
  induction n generalizing first with
  | zero => rfl
  | succ n ih => rw [range'_succ, map_cons, map_cons, startsFrom, ← below_succ, ih]

lemma getD_zeros {d : Nat} (hd : d < size) : (List.replicate size 0).getD d 0 = 0 := by
  rw [getD_eq_getElem _ _ (by rwa [length_replicate]), getElem_replicate]

lemma length_tally : (tally digit size keys).length = size := by rw [tally, length_foldl_modify, length_replicate]

lemma getD_tally {d : Nat} (hd : d < size) :
    (tally digit size keys).getD d 0 = (bucket digit keys d).length := by
  rw [tally, getD_foldl_modify _ _ (by rwa [length_replicate]), getD_zeros hd, Nat.zero_add]

lemma tally_eq :
    tally digit size keys = (List.range size).map fun d => (bucket digit keys d).length := by
  refine ext_getElem (by simp [length_tally]) fun d hd _ => ?_
  rw [← getD_eq_getElem _ 0 hd, getD_tally (by rwa [length_tally] at hd), getElem_map, getElem_range]

lemma getD_starts {d : Nat} (hd : d < size) :
    (startsFrom 0 (tally digit size keys)).getD d 0 = below digit keys d := by
  have hstarts := startsFrom_below digit keys 0 size
  rw [show below digit keys 0 = 0 by simp [below], ← range_eq_range'] at hstarts
  rw [tally_eq, hstarts, getD_eq_getElem _ _ (by simpa using hd), getElem_map, getElem_range]

/-- Every key moved so far stands in its slot, and the next slots are behind the moved keys. -/
structure Moved (digit : α → Nat) (size : Nat) (keys moved : List α) (moving : Moving α) : Prop where
  slots : moving.slots.length = size
  next : ∀ d < size, moving.slots.getD d 0 = below digit keys d + (bucket digit moved d).length
  scratch : moving.scratch.length = keys.length
  placed : ∀ d < size, ∀ j < (bucket digit moved d).length,
    moving.scratch[below digit keys d + j]? = (bucket digit moved d)[j]?

lemma length_filter_lt_add (digit : α → Nat) (keys : List α) (d : Nat) :
    below digit keys d + (bucket digit keys d).length ≤ keys.length := by
  rw [← below_succ]
  exact length_filter_le _ _

lemma Moved.step {moved rest : List α} {key : α} {moving : Moving α}
    (hkeys : keys = moved ++ key :: rest)
    (hdigit : digit key < size) (h : Moved digit size keys moved moving) :
    Moved digit size keys (moved ++ [key]) (move digit moving key) := by
  have hbuc : ∀ d, bucket digit keys d = bucket digit moved d ++ bucket digit (key :: rest) d := by
    intro d
    rw [hkeys, bucket_append]
  -- the key's slot is still free, and lies among the slots of its digit
  have hfree : (bucket digit moved (digit key)).length < (bucket digit keys (digit key)).length := by
    rw [hbuc, bucket_cons_self, length_append, length_cons]
    omega
  have hroom := length_filter_lt_add digit keys (digit key)
  have hslot := h.next _ hdigit
  have hoth : ∀ d, digit key ≠ d → bucket digit (moved ++ [key]) d = bucket digit moved d := by
    intro d hd
    rw [bucket_append, bucket_cons_ne hd]
    exact append_nil _
  have hself : bucket digit (moved ++ [key]) (digit key) = bucket digit moved (digit key) ++ [key] := by
    rw [bucket_append, bucket_cons_self]
    rfl
  refine ⟨?_, fun d hd => ?_, ?_, fun d hd j hj => ?_⟩
  · rw [move, length_modify, h.slots]
  · have hmod := @getD_foldl_modify α digit [key] moving.slots d (by rwa [h.slots])
    rw [foldl_cons, foldl_nil] at hmod
    rw [move, hmod, h.next d hd, bucket_append, length_append, Nat.add_assoc]
  · rw [move, length_set, h.scratch]
  · rw [move, hslot]
    by_cases hd' : digit key = d
    · subst hd'
      rw [hself] at hj ⊢
      rw [length_append, length_singleton] at hj
      by_cases hlast : j = (bucket digit moved (digit key)).length
      · subst hlast
        rw [getElem?_set_self (by rw [h.scratch]; omega), getElem?_append_right le_rfl]
        simp
      · rw [getElem?_set_ne (by omega), h.placed _ hdigit j (by omega), getElem?_append_left (by omega)]
    · rw [hoth d hd'] at hj ⊢
      rw [getElem?_set_ne, h.placed d hd j hj]
      -- the slots of different digits do not meet
      have hlen : (bucket digit moved d).length ≤ (bucket digit keys d).length := by
        rw [hbuc, length_append]
        exact Nat.le_add_right _ _
      rcases Nat.lt_or_gt_of_ne hd' with hlt | hgt
      · have hle := @below_add_le α digit keys _ _ hlt
        omega
      · have hle := @below_add_le α digit keys _ _ hgt
        omega

lemma Moved.run {moved rest : List α} {moving : Moving α} (hkeys : keys = moved ++ rest)
    (hdigits : ∀ key ∈ rest, digit key < size) (h : Moved digit size keys moved moving) :
    Moved digit size keys keys (rest.foldl (move digit) moving) := by
  induction rest generalizing moved moving with
  | nil =>
    rw [append_nil] at hkeys
    rw [hkeys] at h ⊢
    exact h
  | cons key rest ih =>
    exact ih (by rw [hkeys, append_assoc]; rfl) (fun other hoth => hdigits other (mem_cons_of_mem _ hoth))
      (h.step hkeys (hdigits key (.head _)))

lemma below_of_le (hdigits : ∀ key ∈ keys, digit key < size) :
    below digit keys size = keys.length := by
  rw [below, filter_eq_self.mpr (fun key hkey => by simpa using hdigits key hkey)]

/-- A pass gathers the keys by digit and keeps their order within a digit. -/
theorem pass_eq (hdigits : ∀ key ∈ keys, digit key < size)
    (hscratch : scratch.length = keys.length) :
    pass digit size keys scratch = (List.range size).flatMap (bucket digit keys) := by
  have hst : Moved digit size keys [] ⟨startsFrom 0 (tally digit size keys), scratch⟩ := by
    refine ⟨?_, fun d hd => getD_starts hd, hscratch, fun d _ j hj => absurd hj (by simp [bucket])⟩
    rw [length_startsFrom, length_tally]
  have hmv := hst.run (nil_append _).symm hdigits
  have htake : ∀ d ≤ size, (pass digit size keys scratch).take (below digit keys d) =
      (range d).flatMap (bucket digit keys) := by
    intro d hd
    induction d with
    | zero => simp [below]
    | succ d ih =>
      rw [below_succ, take_add, ih (by omega), range_succ, flatMap_append, flatMap_singleton]
      congr 1
      refine ext_getElem? fun j => ?_
      rw [getElem?_take]
      split_ifs with hj
      · rw [getElem?_drop]
        exact hmv.placed d (by omega) j hj
      · exact (getElem?_eq_none (not_lt.mp hj)).symm
  rw [← htake size le_rfl, below_of_le hdigits, take_of_length_le]
  exact hmv.scratch.le

end Pass

section Passes

variable {digit : Nat → α → Nat} {size : Nat}

lemma flatMap_bucket_perm (digit : α → Nat) (keys : List α) (size : Nat) :
    ((List.range size).flatMap (bucket digit keys)).Perm (keys.filter (digit · < size)) := by
  induction size with
  | zero => simp
  | succ size ih =>
    rw [range_succ, flatMap_append, flatMap_singleton]
    refine (ih.append_right _).trans ?_
    have hcut := filter_append_perm (digit · < size) (keys.filter (digit · < size + 1))
    refine List.Perm.trans (List.Perm.of_eq ?_) hcut
    rw [filter_filter, filter_filter, bucket]
    congr 1
    · refine filter_congr fun key _ => ?_
      simp only [← Bool.decide_and, decide_eq_decide]
      omega
    · refine filter_congr fun key _ => ?_
      rw [← decide_not, ← Bool.decide_and, decide_eq_decide]
      omega

/-- Keys in order of their last digits, most significant digit first. -/
def DigitsLe (digit : Nat → α → Nat) : Nat → α → α → Prop
  | 0, _, _ => True
  | passes + 1, a, b => digit passes a < digit passes b ∨ digit passes a = digit passes b ∧ DigitsLe digit passes a b

/-- The keys and the other buffer, which change places in every pass. -/
def passes (digit : Nat → α → Nat) (size : Nat) : Nat → List α → List α → List α × List α
  | 0, keys, scratch => (keys, scratch)
  | n + 1, keys, scratch =>
    let before := passes digit size n keys scratch
    (pass (digit n) size before.1 before.2, before.1)

lemma flatMap_bucket_pairwise {R : α → α → Prop} {digit : α → Nat} {keys : List α}
    (h : keys.Pairwise R) (size : Nat) :
    ((List.range size).flatMap (bucket digit keys)).Pairwise fun a b => digit a < digit b ∨
      digit a = digit b ∧ R a b := by
  refine pairwise_flatMap.mpr ⟨fun d _ => ?_, ?_⟩
  · refine (h.filter _).imp_of_mem fun {a b} ha hb hab => .inr ⟨?_, hab⟩
    have ha' : digit a = d := of_decide_eq_true (mem_filter.mp ha).2
    have hb' : digit b = d := of_decide_eq_true (mem_filter.mp hb).2
    rw [ha', hb']
  · refine pairwise_lt_range.imp fun {d e} hde a ha b hb => .inl ?_
    have ha' : digit a = d := of_decide_eq_true (mem_filter.mp ha).2
    have hb' : digit b = e := of_decide_eq_true (mem_filter.mp hb).2
    rw [ha', hb']
    exact hde

/-- Passes permute the keys and sort them by their digits. -/
theorem passes_spec {keys scratch : List α} (hdigits : ∀ n, ∀ key ∈ keys, digit n key < size)
    (hscratch : scratch.length = keys.length) (n : Nat) :
    (passes digit size n keys scratch).1.Perm keys ∧
      (passes digit size n keys scratch).2.length = keys.length ∧
      (passes digit size n keys scratch).1.Pairwise (DigitsLe digit n) := by
  induction n with
  | zero => exact ⟨.refl _, hscratch, pairwise_of_forall fun _ _ => trivial⟩
  | succ n ih =>
    obtain ⟨hperm, hlen, hpair⟩ := ih
    have hdig' : ∀ key ∈ (passes digit size n keys scratch).1, digit n key < size :=
      fun key hkey => hdigits n key (hperm.mem_iff.mp hkey)
    have hpass := pass_eq hdig' (hlen.trans hperm.length_eq.symm)
    simp only [passes]
    rw [hpass]
    refine ⟨?_, hperm.length_eq, flatMap_bucket_pairwise hpair size⟩
    refine (flatMap_bucket_perm _ _ _).trans (List.Perm.trans (List.Perm.of_eq ?_) hperm)
    exact filter_eq_self.mpr fun key hkey => decide_eq_true (hdig' key hkey)

end Passes

end RadixLib
