import Girt.Index.Split
import Mathlib.Data.List.Chain

/-!
# What a validated entry set satisfies

Validation does not look at stat data, and it looks at the limits only for the length of a path.
-/

namespace Girt.IndexFile
open ByteLib List

def Entry.unstamped (entry : Entry) : Entry :=
  { entry with stat := ⟨⟨0, 0⟩, ⟨0, 0⟩, 0, 0, 0, 0, 0⟩ }

section Unstamped

variable (fmt : ObjectFormat) (limits : Limits)

lemma checkEntry_unstamped (pos : Nat) (prev : Option Entry)
    (entry : Entry) :
    checkEntry fmt limits pos (prev.map Entry.unstamped) entry.unstamped =
      checkEntry fmt limits pos prev entry := by
  cases prev <;> rfl

lemma checkEntries_unstamped (entries : List Entry) (pos : Nat)
    (prev : Option Entry) :
    checkEntries fmt limits pos (prev.map Entry.unstamped) (entries.map Entry.unstamped) =
      checkEntries fmt limits pos prev entries := by
  induction entries generalizing pos prev with
  | nil => rfl
  | cons ent entries ih =>
    rw [map_cons, checkEntries, checkEntries, checkEntry_unstamped]
    congr 1
    funext _
    exact ih (pos + 1) (some ent)

lemma stagesAt_unstamped (entries : List Entry) (directory : Bytes) :
    stagesAt (entries.map Entry.unstamped) directory = stagesAt entries directory := by
  unfold stagesAt
  rw [dropWhile_map, takeWhile_map, foldl_map]
  rfl

lemma nextAncestors_unstamped (all : List Entry) (prev : Bytes) (ancestors : List (Nat × Nat))
    (path : Bytes) :
    nextAncestors (all.map Entry.unstamped) prev ancestors path =
      nextAncestors all prev ancestors path := by
  simp only [nextAncestors, stagesAt_unstamped]

lemma checkCollisions_unstamped (all entries : List Entry) (pos : Nat) (prev : Bytes)
    (ancestors : List (Nat × Nat)) :
    checkCollisions (all.map Entry.unstamped) pos prev ancestors (entries.map Entry.unstamped) =
      checkCollisions all pos prev ancestors entries := by
  induction entries generalizing pos prev ancestors with
  | nil => rfl
  | cons ent entries ih =>
    have hhead : ((entries.map Entry.unstamped).head?.any (ent.path.isPrefixOf ·.path)) =
        (entries.head?.any (ent.path.isPrefixOf ·.path)) := by
      cases entries <;> rfl
    rw [map_cons, checkCollisions, checkCollisions]
    simp only [nextAncestors_unstamped, ih]
    simp only [Entry.unstamped, hhead]
    rfl

lemma validateEntries_unstamped (entries : List Entry) (limits : Limits) :
    validateEntries fmt (entries.map Entry.unstamped) limits =
      validateEntries fmt entries limits := by
  rw [validateEntries, validateEntries, checkCollisions_unstamped]
  rw [← checkEntries_unstamped fmt limits entries 0 none]
  rfl

end Unstamped

namespace Entry

/-- The path whose components are names: a sparse directory ends with a slash. -/
def leaf (entry : Entry) : Bytes :=
  if entry.mode = .sparseDirectory then entry.path.dropLast else entry.path

structure Formed (fmt : ObjectFormat) (limits : Limits) (entry : Entry) : Prop where
  format_eq : entry.id.format = fmt
  path_le : entry.path.length ≤ limits.maxPathBytes
  sparse : entry.mode = .sparseDirectory → entry.skipWorktree = true ∧ entry.intentToAdd = false ∧
    entry.stage = .normal ∧ entry.path.getLast? = some 47

/-- Every component is a name that a file may have. -/
def Named (entry : Entry) : Prop := 0 ∉ entry.leaf ∧ ∀ part ∈ entry.leaf.splitOn 47, part ∉ forbiddenComponents

end Entry

section Accepted

variable {fmt : ObjectFormat} {limits other : Limits} {pos : Nat} {prev : Option Entry} {entries : List Entry}

/-- Two neighbours: the first comes first, and it is not the normal entry of the same path. -/
def Follows (a b : Entry) : Prop := a.key < b.key ∧ ¬(a.path = b.path ∧ a.stage = .normal)

lemma leafPath_iff {ent : Entry} {path : Bytes} : leafPath pos ent = .ok path ↔
    (ent.mode = .sparseDirectory → ent.skipWorktree ∧ ent.intentToAdd = false ∧
      ent.stage = .normal ∧ ent.path.getLast? = some 47) ∧ ent.leaf = path := by
  unfold leafPath Entry.leaf
  split
  · rename_i hmode
    simp only [bind_ok, reject_ok, hmode, Bool.or_eq_true, not_or, Bool.not_eq_true, decide_eq_true_eq,
      Bool.not_eq_false', not_not, exists_and_left, exists_const, Except.ok.injEq, forall_const, and_assoc]
  · rename_i hmode
    simp [hmode]

lemma checkOrder_iff {entry : Entry} {u : Unit} : checkOrder pos prev entry = .ok u ↔
    ∀ earlier, prev = some earlier → Follows earlier entry := by
  cases prev with
  | none => simp [checkOrder]
  | some earlier => simp [checkOrder, bind_ok, reject_ok, Follows]

lemma checkEntry_iff {entry : Entry} {u : Unit} :
    checkEntry fmt limits pos prev entry = .ok u ↔ entry.Formed fmt limits ∧ entry.Named ∧
      ∀ earlier, prev = some earlier → Follows earlier entry := by
  have hnam : ∀ path, ¬invalidPath path ↔
      0 ∉ path ∧ ∀ part ∈ path.splitOn 47, part ∉ forbiddenComponents := by simp [invalidPath]
  simp only [checkEntry, bind_ok, reject_ok, checkCount_eq_ok, leafPath_iff, hnam, checkOrder_iff,
    exists_and_left, exists_const, not_not]
  constructor
  · rintro ⟨hform, hlen, path, ⟨hspa, rfl⟩, hvd, hfol⟩
    exact ⟨⟨hform, hlen, hspa⟩, hvd, hfol⟩
  · rintro ⟨⟨hform, hlen, hspa⟩, hvd, hfol⟩
    exact ⟨hform, hlen, _, ⟨hspa, rfl⟩, hvd, hfol⟩

lemma checkEntries_iff {u : Unit} : checkEntries fmt limits pos prev entries = .ok u ↔
    (∀ e ∈ entries, e.Formed fmt limits) ∧ (∀ e ∈ entries, e.Named) ∧
      (prev.toList ++ entries).IsChain Follows := by
  induction entries generalizing pos prev with
  | nil => cases prev <;> simp [checkEntries]
  | cons entry entries ih =>
    rw [checkEntries, bind_ok]
    simp only [checkEntry_iff, ih, forall_mem_cons, exists_const]
    cases prev with
    | none =>
      tauto
    | some earlier =>
      simp only [Option.toList_some, nil_append, cons_append, isChain_cons_cons, Option.some.injEq,
        forall_eq']
      tauto

lemma validateEntries_limits (h : validateEntries fmt entries limits = .ok ())
    (hpath : ∀ ent ∈ entries, ent.path.length ≤ other.maxPathBytes) :
    validateEntries fmt entries other = .ok () := by
  obtain ⟨⟨⟩, hens, h⟩ := bind_ok.mp h
  obtain ⟨hfor, hrest⟩ := checkEntries_iff.mp hens
  have hoth : ∀ e ∈ entries, e.Formed fmt other := fun e he =>
    ⟨(hfor e he).format_eq, hpath e he, (hfor e he).sparse⟩
  exact bind_ok.mpr ⟨(), checkEntries_iff.mpr ⟨hoth, hrest⟩, h⟩

lemma validateEntries_mem (h : validateEntries fmt entries limits = .ok ()) :
    ∀ ent ∈ entries, ent.id.format = fmt ∧ 0 ∉ ent.path := by
  obtain ⟨⟨⟩, hens, -⟩ := bind_ok.mp h
  obtain ⟨hfor, hnam, -⟩ := checkEntries_iff.mp hens
  intro ent hen
  refine ⟨(hfor ent hen).format_eq, ?_⟩
  have hzero := (hnam ent hen).1
  unfold Entry.leaf at hzero
  split at hzero
  · rename_i hspa
    rw [← dropLast_append_getLast? 47 ((hfor ent hen).sparse hspa).2.2.2]
    simpa using hzero
  · exact hzero

lemma sortEntries_of_valid (h : validateEntries fmt entries limits = .ok ()) :
    sortEntries entries = entries := by
  obtain ⟨⟨⟩, hens, -⟩ := bind_ok.mp h
  have hch := (checkEntries_iff.mp hens).2.2
  have hkeys : (entries.map Entry.key).IsChain (· < ·) :=
    (isChain_map _).mpr (hch.imp fun _ _ hab => hab.1)
  exact ((pairwise_map.mp hkeys.pairwise).imp le_of_lt).insertionSort_eq

end Accepted

end Girt.IndexFile
