import Mathlib.Data.List.Chain
import Girt.Lib.Bytes

/-!
# Bisection

The loops that halve a range of positions: one finds where a test stops to hold, the other finds a position
that compares equal. Both read positions one at a time and reading may fail.
-/

namespace BisectLib
open ByteLib

variable {ε : Type}

/-- The first position of a range at which a test does not hold. -/
def partitionPoint (test : Nat → Except ε Bool) (low high : Nat) : Except ε Nat :=
  if low < high then do
    let holds ← test (low + (high - low) / 2)
    if holds then partitionPoint test (low + (high - low) / 2 + 1) high
    else partitionPoint test low (low + (high - low) / 2)
  else .ok low
termination_by high - low

def keyOrder {κ : Type} [LinearOrder κ] (a b : κ) : Ordering := if a < b then .lt else if a = b then .eq else .gt

def search (compare : Nat → Except ε Ordering) (low high : Nat) : Except ε (Option Nat) :=
  if low < high then do
    let order ← compare (low + (high - low) / 2)
    match order with
    | .lt => search compare (low + (high - low) / 2 + 1) high
    | .gt => search compare low (low + (high - low) / 2)
    | .eq => .ok (some (low + (high - low) / 2))
  else .ok none
termination_by high - low

lemma pairwise_lt_of_neighbours {α κ : Type} [LinearOrder κ] {key : α → κ} {l : List α}
    (hsorted : l.Pairwise fun a b => key a ≤ key b)
    (hne : ¬∃ pair ∈ l.zip l.tail, key pair.1 = key pair.2) : l.Pairwise fun a b => key a < key b := by
  have hch : l.IsChain fun a b => key a < key b := by
    refine List.isChain_iff_forall_rel_of_append_cons_cons.mpr fun a b before after heq => ?_
    subst heq
    have hle : key a ≤ key b := by
      have hpair := (List.pairwise_append.mp hsorted).2.1
      exact List.rel_of_pairwise_cons hpair List.mem_cons_self
    refine lt_of_le_of_ne hle fun hkeys => hne ⟨(a, b), ?_, hkeys⟩
    refine List.mem_of_getElem? (i := before.length) (List.getElem?_zip_eq_some.mpr ⟨by simp, ?_⟩)
    simp
  exact List.isChain_iff_pairwise.mp hch

lemma partitionPoint_spec {test : Nat → Except ε Bool} {holds : Nat → Bool} {low high : Nat}
    (hle : low ≤ high) (htest : ∀ i, low ≤ i → i < high → test i = .ok (holds i))
    (hmono : ∀ i j, low ≤ i → i ≤ j → j < high → holds j → holds i) :
    ∃ point, partitionPoint test low high = .ok point ∧ low ≤ point ∧ point ≤ high ∧
      (∀ i, low ≤ i → i < point → holds i) ∧ ∀ i, point ≤ i → i < high → holds i = false := by
  fun_induction partitionPoint test low high with
  | case1 low high hlt ihupper ihlower =>
    have hmid := htest (low + (high - low) / 2) (by omega) (by omega)
    cases hhol : holds (low + (high - low) / 2) with
    | true =>
      obtain ⟨point, hpt, hlow, hhigh, hbelow, habo⟩ := ihupper (by omega)
        (fun i hi hi' => htest i (by omega) hi') (fun i j hi hij hj => hmono i j (by omega) hij hj)
      refine ⟨point, ?_, by omega, hhigh, fun i hi hi' => ?_, habo⟩
      · exact bind_ok.mpr ⟨_, hmid, by rw [hhol]; exact hpt⟩
      · by_cases hcase : i ≤ low + (high - low) / 2
        · exact hmono i _ hi hcase (by omega) hhol
        · exact hbelow i (by omega) hi'
    | false =>
      obtain ⟨point, hpt, hlow, hhigh, hbelow, habo⟩ := ihlower (by omega)
        (fun i hi hi' => htest i hi (by omega)) (fun i j hi hij hj => hmono i j hi hij (by omega))
      refine ⟨point, ?_, hlow, by omega, hbelow, fun i hi hi' => ?_⟩
      · exact bind_ok.mpr ⟨_, hmid, by rw [hhol]; exact hpt⟩
      by_cases hcase : i < low + (high - low) / 2
      · exact habo i hi hcase
      -- a test that fails in the middle fails behind it
      refine Bool.eq_false_iff.mpr fun hi'' => ?_
      rw [hmono _ i (by omega) (not_lt.mp hcase) hi' hi''] at hhol
      cases hhol
  | case2 low high hlt => exact ⟨low, rfl, le_rfl, hle, fun i hi hi' => by omega, fun i hi hi' => by omega⟩

/-- A search over strictly increasing keys finds the position of a key, if there is one. -/
lemma search_key {κ : Type} [LinearOrder κ] {compare : Nat → Except ε Ordering} {key : Nat → κ}
    {target : κ} {low high : Nat}
    (hcompare : ∀ i, low ≤ i → i < high → compare i = .ok (keyOrder (key i) target))
    (hkeys : ∀ i j, low ≤ i → i < j → j < high → key i < key j) :
    ∃ found, search compare low high = .ok found ∧ ∀ i, found = some i ↔
      low ≤ i ∧ i < high ∧ key i = target := by
  fun_induction search compare low high with
  | case1 low high hrg ihupper ihlower =>
    have hmid := hcompare (low + (high - low) / 2) (by omega) (by omega)
    generalize hm : low + (high - low) / 2 = mid at *
    rcases lt_trichotomy (key mid) target with hlt | heq | hgt
    · obtain ⟨found, hgot, hiff⟩ := ihupper (fun i hi hi' => hcompare i (by omega) hi')
        (fun i j hi hij hj => hkeys i j (by omega) hij hj)
      refine ⟨found, bind_ok.mpr ⟨_, hmid, by rw [keyOrder, if_pos hlt]; exact hgot⟩,
        fun i => (hiff i).trans ?_⟩
      refine ⟨fun h => ⟨by omega, h.2⟩, fun h => ⟨?_, h.2⟩⟩
      -- a key up to the middle is below the target
      by_contra hle
      rcases (show i ≤ mid by omega).lt_or_eq with hlt' | rfl
      · exact ((hkeys i mid h.1 hlt' (by omega)).trans hlt).ne h.2.2
      · exact hlt.ne h.2.2
    · refine ⟨some mid, bind_ok.mpr ⟨_, hmid, by rw [keyOrder, if_neg heq.not_lt, if_pos heq]⟩, fun i => ?_⟩
      rw [Option.some.injEq]
      refine ⟨fun h => h ▸ ⟨by omega, by omega, heq⟩, fun h => ?_⟩
      rcases lt_trichotomy i mid with hij | hij | hij
      · exact absurd (h.2.2.trans heq.symm) (hkeys i mid h.1 hij (by omega)).ne
      · exact hij.symm
      · exact absurd (heq.trans h.2.2.symm) (hkeys mid i (by omega) hij h.2.1).ne
    · obtain ⟨found, hgot, hiff⟩ := ihlower (fun i hi hi' => hcompare i hi (by omega))
        (fun i j hi hij hj => hkeys i j hi hij (by omega))
      refine ⟨found, bind_ok.mpr ⟨_, hmid, by rw [keyOrder, if_neg hgt.le.not_gt, if_neg hgt.ne']; exact hgot⟩,
        fun i => (hiff i).trans ⟨fun h => ⟨h.1, by omega, h.2.2⟩, fun h => ⟨h.1, ?_, h.2.2⟩⟩⟩
      by_contra hge
      rcases (not_lt.mp hge).lt_or_eq with hlt' | rfl
      · exact (hgt.trans (hkeys mid i (by omega) hlt' h.2.1)).ne' h.2.2
      · exact hgt.ne' h.2.2
  | case2 low high hrg => exact ⟨none, rfl, fun i => by simp; omega⟩

end BisectLib
