import Girt.Proofs.IndexOrder
import Girt.Stash

/-!
# What an applied stash may meet

The probe of an ordered set for a path below another, and the index that a clean apply leaves.
-/

namespace Girt.Stash
open ByteLib Girt.IndexFile List
open Leaf (entry)

section Collision

variable {occ : List Bytes} {path first : Bytes}

/-- Two paths that cannot both be files. -/
def Related (a b : Bytes) : Prop := a = b ∨ a ++ [47] <+: b ∨ b ++ [47] <+: a

/-- A member below the path, and another that sorts between the path and everything below it. -/
def Hidden (occ : List Bytes) (path : Bytes) : Prop :=
  (∃ b ∈ occ, path ++ [47] <+: b) ∧ ∃ other ∈ occ, path < other ∧ other < path ++ [47]

lemma firstFrom_eq_some :
    firstFrom occ path = some first ↔
      (first ∈ occ ∧ path ≤ first) ∧ ∀ b ∈ occ, path ≤ b → first ≤ b := by
  rw [firstFrom, min?_eq_some_iff]
  simp

/-- The probe misses a member below the path exactly when another sorts before it. -/
lemma collision_iff :
    collision occ path ↔ path ∈ occ ∨ (∃ a ∈ occ, a ++ [47] <+: path) ∨
      (∃ b ∈ occ, path ++ [47] <+: b) ∧ ¬∃ other ∈ occ, path < other ∧ other < path ++ [47] := by
  have habove : (slashesFrom 0 path).any (fun slash => occ.contains (path.take slash)) ↔
      ∃ a ∈ occ, a ++ [47] <+: path := by
    simp only [any_eq_true, contains_iff_mem, ← take_slash_iff]
    constructor
    · rintro ⟨slash, hslash, ha⟩
      exact ⟨_, ha, slash, hslash, rfl⟩
    · rintro ⟨_, ha, slash, hslash, rfl⟩
      exact ⟨slash, hslash, ha⟩
  simp only [collision, Bool.or_eq_true, habove, contains_iff_mem, Option.any_eq_true,
    isPrefixOf_iff_prefix, or_assoc]
  refine or_congr_right' fun hne => or_congr_right ?_
  constructor
  · rintro ⟨first, hfirst, hbelow⟩
    obtain ⟨⟨hmem, -⟩, hleast⟩ := firstFrom_eq_some.mp hfirst
    refine ⟨⟨first, hmem, hbelow⟩, ?_⟩
    rintro ⟨other, hother, hlt, hgt⟩
    exact absurd ((le_of_isPrefix hbelow).trans (hleast other hother hlt.le)) (not_le.mpr hgt)
  · rintro ⟨⟨b, hb, hbelow⟩, hnone⟩
    have hle : path ≤ b := le_of_isPrefix ((prefix_append path [47]).trans hbelow)
    cases hfirst : firstFrom occ path with
    | none =>
      rw [firstFrom, min?_eq_none_iff, filter_eq_nil_iff] at hfirst
      exact absurd hle (by simpa using hfirst b hb)
    | some first =>
      obtain ⟨⟨hmem, hge⟩, hleast⟩ := firstFrom_eq_some.mp hfirst
      have hdir : path ++ [47] ≤ first := by
        by_contra hlt
        refine hnone ⟨first, hmem, lt_of_le_of_ne hge ?_, not_le.mp hlt⟩
        rintro rfl
        exact hne hmem
      exact ⟨first, rfl, isPrefix_of_le_of_le hdir (hleast b hb hle) hbelow⟩

lemma collision_congr {others : List Bytes} (h : ∀ a, a ∈ occ ↔ a ∈ others) :
    collision occ path = collision others path := by
  rw [Bool.eq_iff_iff, collision_iff, collision_iff]
  simp only [h]

lemma collision_related (h : collision occ path) : ∃ a ∈ occ, Related path a := by
  rcases collision_iff.mp h with hmem | ⟨a, ha, habove⟩ | ⟨⟨b, hb, hbelow⟩, -⟩
  · exact ⟨path, hmem, .inl rfl⟩
  · exact ⟨a, ha, .inr (.inr habove)⟩
  · exact ⟨b, hb, .inr (.inl hbelow)⟩

lemma related_iff_hidden (h : collision occ path = false) :
    (∃ a ∈ occ, Related path a) ↔ Hidden occ path := by
  have hno : ¬collision occ path := by simp [h]
  rw [collision_iff, not_or, not_or, not_and, not_not] at hno
  constructor
  · rintro ⟨a, ha, rfl | hbelow | habove⟩
    · exact absurd ha hno.1
    · exact ⟨⟨a, ha, hbelow⟩, hno.2.2 ⟨a, ha, hbelow⟩⟩
    · exact absurd ⟨a, ha, habove⟩ hno.2.1
  · rintro ⟨⟨b, hb, hbelow⟩, -⟩
    exact ⟨b, hb, .inr (.inl hbelow)⟩

end Collision

section Draft

variable {Memory : Type} {objects : Objects Memory} {saved : Snapshot} {input : ApplyInput} {options : ApplyOptions}
  {merge : TreeMerge} {current merged index : Index} {format : ObjectFormat} {limits : Limits}
  {entries : List Entry}

lemma new_entries (h : Index.new format entries limits = .ok index) :
    index.entries ~ entries ∧ Ordered index.entries := by
  obtain ⟨⟨⟩, -, h⟩ := bind_ok.mp h
  obtain ⟨⟨⟩, hvalid, h⟩ := bind_ok.mp h
  have hsame : index.entries = sortEntries entries := by
    rw [fitting_eq_ok h]
    unfold Index.markSparse
    split_ifs <;> rfl
  rw [hsame]
  exact ⟨perm_insertionSort _ _, (validateEntries_iff.mp hvalid).2⟩

lemma draft_entries (h : draft objects options merge = .ok index) (hclean : merge.isClean) :
    ∃ leaves, merge.leaves = .ok leaves ∧ index.entries ~ leaves.map entry := by
  obtain ⟨leaves, hleaves, h⟩ := bind_ok.mp h
  have hnone : merge.conflicts = [] := isEmpty_iff.mp hclean
  rw [wrapError_eq_ok, hnone] at h
  exact ⟨leaves, hleaves, by simpa using (new_entries h).1⟩

lemma checkUntracked_ok (h : checkUntracked objects saved input options current = .ok ())
    {tree : ObjectId} (htree : saved.untracked = some tree) :
    ∃ leaves, objects.leaves tree = .ok leaves ∧
      ∀ leaf ∈ leaves, collision (current.entries.map Entry.path ++ input.occupied) leaf.path = false := by
  obtain ⟨⟨⟩, -, h⟩ := bind_ok.mp h
  rw [htree] at h
  obtain ⟨files, hfiles, h⟩ := bind_ok.mp h
  obtain ⟨leaves, hleaves, hperm⟩ := draft_entries hfiles rfl
  refine ⟨leaves, hleaves, fun leaf hleaf => ?_⟩
  cases hfind : files.entries.find? fun entry =>
    collision (current.entries.map Entry.path ++ input.occupied) entry.path with
  | some entry => simp [hfind] at h
  | none =>
    have hmem : leaf.entry ∈ files.entries := hperm.mem_iff.mpr (mem_map_of_mem hleaf)
    simpa [entry] using find?_eq_none.mp hfind _ hmem

lemma applyStash_ok {memory : Memory} {result : Apply}
    (h : applyStash objects saved input options memory = .ok result) :
    ∃ current, draft objects options (clean objects input.index) = .ok current ∧
      checkUntracked objects saved input options current = .ok () ∧
      (options.restoreIndex = false → result.tracked.isClean → ∃ index merged, result.index = some index ∧
        draft objects options result.tracked = .ok merged ∧ stageAdditions objects options current merged = .ok index) := by
  obtain ⟨current, hcurrent, h⟩ := bind_ok.mp h
  obtain ⟨⟨⟩, hcheck, h⟩ := bind_ok.mp h
  refine ⟨current, hcurrent, hcheck, fun hrestore hclean => ?_⟩
  obtain ⟨_, hnone, h⟩ := bind_ok.mp h
  simp only [mergeIndex, hrestore, Bool.false_eq_true, if_false] at hnone
  cases hnone
  simp only [Option.any_none, Bool.false_eq_true, if_false] at h
  obtain ⟨⟨tracked, memory⟩, -, h⟩ := bind_ok.mp h
  obtain ⟨index, hindex, h⟩ := bind_ok.mp h
  obtain ⟨restored, -, h⟩ := bind_ok.mp h
  cases h
  simp only [finalIndex, hclean, Bool.not_true, Bool.false_eq_true, if_false] at hindex
  obtain ⟨merged, hmerged, hindex⟩ := bind_ok.mp hindex
  exact ⟨index, merged, rfl, hmerged, hindex⟩

/-- The files that the merge has and the current tree has not. -/
def added (current merged : List Leaf) : List Leaf := merged.filter fun leaf => leaf.path ∉ current.map Leaf.path

lemma stageAdditions_entries {here there : List Leaf} (hhere : current.entries ~ here.map entry)
    (hthere : merged.entries ~ there.map entry) (h : stageAdditions objects options current merged = .ok index) :
    (∀ a ∈ index.entries, ∀ b ∈ index.entries, ¬a.path ++ [47] <+: b.path) ∧
      ∀ e, e ∈ index.entries ↔ e ∈ (added here there).map entry ∨
        e ∈ here.map entry ∧ ∀ leaf ∈ added here there, ¬Related e.path leaf.path := by
  obtain ⟨hperm, hord⟩ := new_entries (wrapError_eq_ok.mp h)
  set additions := (merged.entries.filter fun e =>
    e.path ∉ current.entries.map Entry.path).map Entry.path with hadditions
  have hadded : ∀ p, p ∈ additions ↔ ∃ leaf ∈ added here there, leaf.path = p := by
    simp [hadditions, added, hhere.mem_iff, hthere.mem_iff, entry, and_assoc]
  have hmem : ∀ e, e ∈ index.entries ↔ (e ∈ here.map entry ∧ collision additions e.path = false) ∨
      e ∈ there.map entry ∧ e.path ∈ additions := by
    intro e
    rw [hperm.mem_iff]
    simp [hhere.mem_iff, hthere.mem_iff]
  have hnormal : ∀ e ∈ index.entries, e.stage = .normal := by
    intro e he
    rcases (hmem e).mp he with ⟨hleaf, -⟩ | ⟨hleaf, -⟩
    all_goals
      obtain ⟨leaf, -, rfl⟩ := mem_map.mp hleaf
      rfl
  have hfree : ∀ a ∈ index.entries, ∀ b ∈ index.entries, ¬a.path ++ [47] <+: b.path :=
    fun a ha b hb hbelow =>
    (hord.directories a ha b hb hbelow).2.1 (hnormal a ha)
  have hnew : ∀ e, e ∈ there.map entry ∧ e.path ∈ additions ↔ e ∈ (added here there).map entry := by
    intro e
    simp only [hadded, added, mem_map, mem_filter, decide_eq_true_eq]
    constructor
    · rintro ⟨⟨leaf, hleaf, rfl⟩, other, ⟨-, hfresh⟩, hpath⟩
      have hsame : other.path = leaf.path := hpath
      exact ⟨leaf, ⟨hleaf, hsame ▸ hfresh⟩, rfl⟩
    · rintro ⟨leaf, hleaf, rfl⟩
      exact ⟨⟨leaf, hleaf.1, rfl⟩, leaf, hleaf, rfl⟩
  refine ⟨hfree, fun e => ?_⟩
  rw [hmem, hnew, or_comm]
  refine or_congr_right (and_congr_right fun hhere => ⟨fun hclear leaf hleaf hrel => ?_, fun hclear => ?_⟩)
  · -- the probe did not see what lies below the entry, but the final index refuses the two together
    obtain ⟨⟨b, hb, hbelow⟩, -⟩ := (related_iff_hidden hclear).mp ⟨leaf.path,
      (hadded _).mpr ⟨leaf, hleaf, rfl⟩, hrel⟩
    obtain ⟨other, hother, rfl⟩ := (hadded b).mp hb
    exact hfree e ((hmem e).mpr (.inl ⟨hhere, hclear⟩)) other.entry
      ((hmem _).mpr (.inr ((hnew _).mpr (mem_map_of_mem hother)))) hbelow
  · by_contra hcollision
    obtain ⟨a, ha, hrel⟩ := collision_related (by simpa using hcollision)
    obtain ⟨leaf, hleaf, rfl⟩ := (hadded a).mp ha
    exact hclear leaf hleaf hrel

end Draft

def untrackedFiles {Memory : Type} (objects : Objects Memory) (saved : Snapshot) : List Leaf :=
  match saved.untracked.map objects.leaves with
  | some (.ok leaves) => leaves
  | _ => []

/-- An apply that succeeds has kept its untracked files apart from tracked and occupied paths exactly
when no other path hides one that lies below such a file. A clean apply that does not restore the index leaves
a prefix-free index: the added files, and the current entries that none of them displaces. -/
theorem applied_stash_apart_iff {Memory : Type} (objects : Objects Memory) (saved : Snapshot) (input : ApplyInput)
    (options : ApplyOptions) (memory : Memory) (result : Apply)
    (h : applyStash objects saved input options memory = .ok result) :
    ∃ current, objects.leaves input.index = .ok current ∧
      ((∀ leaf ∈ untrackedFiles objects saved, ∀ path ∈ current.map Leaf.path ++ input.occupied, ¬Related leaf.path path) ↔
        ∀ leaf ∈ untrackedFiles objects saved, ¬Hidden (current.map Leaf.path ++ input.occupied) leaf.path) ∧
      (options.restoreIndex = false → result.tracked.isClean = true →
        ∃ index merged, result.index = some index ∧ result.tracked.leaves = .ok merged ∧
          (∀ a ∈ index.entries, ∀ b ∈ index.entries, ¬a.path ++ [47] <+: b.path) ∧
          ∀ e, e ∈ index.entries ↔ e ∈ (added current merged).map Leaf.entry ∨
            e ∈ current.map Leaf.entry ∧ ∀ leaf ∈ added current merged, ¬Related e.path leaf.path) := by
  obtain ⟨index, hindex, hcheck, hfinal⟩ := applyStash_ok h
  obtain ⟨current, hcurrent, hhere⟩ := draft_entries hindex rfl
  refine ⟨current, hcurrent, forall₂_congr fun leaf hleaf => ?_, fun hrestore hclean => ?_⟩
  · have hmem : ∀ a, a ∈ index.entries.map Entry.path ++ input.occupied ↔
        a ∈ current.map Leaf.path ++ input.occupied := by
      simp [hhere.mem_iff, Leaf.entry]
    have hapart : collision (current.map Leaf.path ++ input.occupied) leaf.path = false := by
      cases htree : saved.untracked with
      | none => simp [untrackedFiles, htree] at hleaf
      | some tree =>
        obtain ⟨leaves, hleaves, hfree⟩ := checkUntracked_ok hcheck htree
        simp only [untrackedFiles, htree, Option.map_some, hleaves] at hleaf
        rw [← collision_congr hmem]
        exact hfree leaf hleaf
    rw [← related_iff_hidden hapart]
    push Not
    rfl
  · obtain ⟨final, draft, hresult, hdraft, hstage⟩ := hfinal hrestore hclean
    obtain ⟨merged, hmerged, hthere⟩ := draft_entries hdraft hclean
    exact ⟨final, merged, hresult, hmerged, stageAdditions_entries hhere hthere hstage⟩

def sampleTree (n : UInt8) : ObjectId := ⟨.sha1, replicate 20 n, rfl⟩

def sampleLeaves (tree : ObjectId) : List Leaf :=
  if tree = sampleTree 1 then [⟨ascii "a", .regular, sampleBlob⟩] else []

/-- Tree 1 holds the file `a`; all other trees are empty, and the base of every merge is its first side. -/
def sampleObjects : Objects Unit where
  format := .sha1
  empty := sampleTree 0
  leaves tree := .ok (sampleLeaves tree)
  merge _ _ _ theirs := .ok (⟨theirs, .ok (sampleLeaves theirs), []⟩, ())

def sampleSaved : Snapshot := ⟨sampleTree 0, sampleTree 0, sampleTree 0, some (sampleTree 1)⟩

def sampleOptions : ApplyOptions := ⟨false, sampleLimits⟩

def sampleInput (occupied : List String) : ApplyInput := ⟨sampleTree 0, occupied.map ascii⟩

theorem applied_stash_apart_sample : ∃ result,
    applyStash sampleObjects sampleSaved (sampleInput ["a-b"]) sampleOptions () = .ok result ∧
      ∀ leaf ∈ untrackedFiles sampleObjects sampleSaved, ∀ path ∈ (sampleInput ["a-b"]).occupied, ¬Related leaf.path path := by
  obtain ⟨result, h⟩ := exists_ok (x := applyStash sampleObjects sampleSaved (sampleInput ["a-b"]) sampleOptions ())
    (by decide +kernel)
  obtain ⟨current, hcurrent, hiff, -⟩ := applied_stash_apart_iff _ _ _ _ _ result h
  cases hcurrent
  refine ⟨result, h, hiff.mpr fun leaf hleaf hhidden => ?_⟩
  obtain ⟨⟨b, hb, hbelow⟩, -⟩ := hhidden
  revert hbelow hb b hleaf leaf
  decide +kernel

/-- The occupied `a-b` sorts before `a/x`, and the saved file `a` is restored over the directory. -/
theorem applied_stash_meets_occupied : ∃ result,
    applyStash sampleObjects sampleSaved (sampleInput ["a-b", "a/x"]) sampleOptions () = .ok result ∧
      ∃ leaf ∈ untrackedFiles sampleObjects sampleSaved, ∃ path ∈ (sampleInput ["a-b", "a/x"]).occupied, Related leaf.path path := by
  obtain ⟨result, h⟩ := exists_ok (x := applyStash sampleObjects sampleSaved (sampleInput ["a-b", "a/x"]) sampleOptions ())
    (by decide +kernel)
  exact ⟨result, h, ⟨ascii "a", .regular, sampleBlob⟩, .head _, ascii "a/x", .tail _ (.head _), .inr (.inl ⟨ascii "x", rfl⟩)⟩

end Girt.Stash
