import Girt.Pathspec

/-!
# Pruning a walk

Comparisons go byte by byte from the start of a path, so a decision for a directory holds for all below it.
-/

namespace Girt.Paths
open ByteLib Pieces Wildmatch List

section Comparison

variable {short long right : Bytes}

/-- Whether an item takes two bytes at one position for the same. -/
def Item.Same (item : Item) (position : Nat) (a b : UInt8) : Prop :=
  if position < item.fixed ∨ item.icase = false then a = b else eqIgnoreCase a b = true

variable {item : Item} {i : Nat} {a b c : UInt8}

lemma Item.Same.refl (item : Item) (i : Nat) (a : UInt8) : item.Same i a a := by
  unfold Item.Same
  split <;> simp [eqIgnoreCase]

lemma Item.Same.symm (h : item.Same i a b) : item.Same i b a := by
  unfold Item.Same at h ⊢
  split
  · rename_i hcase
    rw [if_pos hcase] at h
    exact h.symm
  rename_i hcase
  rw [if_neg hcase] at h
  simp only [eqIgnoreCase, beq_iff_eq] at h ⊢
  exact h.symm

lemma Item.Same.trans (hab : item.Same i a b) (hbc : item.Same i b c) : item.Same i a c := by
  unfold Item.Same at hab hbc ⊢
  split
  · rename_i hcase
    rw [if_pos hcase] at hab hbc
    exact hab.trans hbc
  rename_i hcase
  rw [if_neg hcase] at hab hbc
  simp only [eqIgnoreCase, beq_iff_eq] at hab hbc ⊢
  exact hab.trans hbc

lemma Item.Same.slash (h : item.Same i a 47) : a = 47 := by
  unfold Item.Same at h
  split at h
  · exact h
  have hlow : toLowercase 47 = 47 := rfl
  simp only [eqIgnoreCase, hlow, beq_iff_eq] at h
  unfold toLowercase at h
  split at h
  · rename_i hupp
    simp only [isUppercase, Bool.and_eq_true, decide_eq_true_eq, UInt8.le_iff_toNat_le] at hupp
    have hnat := congrArg UInt8.toNat h
    simp only [UInt8.toNat_add, UInt8.reduceToNat] at hnat hupp
    omega
  · exact h

/-- One byte string starts with another, as an item compares them. -/
def Item.Starts (item : Item) (short long : Bytes) : Prop :=
  ∀ i b, short[i]? = some b → ∃ a, long[i]? = some a ∧ item.Same i a b

lemma Item.Starts.length_le (h : item.Starts short long) : short.length ≤ long.length := by
  by_contra hlong
  push Not at hlong
  obtain ⟨a, ha, -⟩ := h long.length _ (getElem?_eq_getElem hlong)
  simp at ha

lemma take_eq_take_iff {left : Bytes} (hlen : left.length = right.length) (n : Nat) :
    left.take n = right.take n ↔
      ∀ i (hl : i < left.length) (hr : i < right.length), i < n → left[i] = right[i] := by
  constructor
  · intro h i hl hr hi
    have hget := congrArg (fun bs : Bytes => bs[i]?) h
    simpa [getElem?_take, hi, hl, hr] using hget
  intro h
  refine ext_getElem (by simp [hlen]) fun i hl hr => ?_
  simp only [length_take, lt_min_iff] at hl hr
  simpa using h i hl.2 hr.2 hl.1

lemma all_zip_drop_iff {left : Bytes} (hlen : left.length = right.length) (n : Nat)
    (accepts : UInt8 → UInt8 → Bool) :
    ((left.drop n).zip (right.drop n)).all (fun (a, b) => accepts a b) ↔
      ∀ i (hl : i < left.length) (hr : i < right.length), n ≤ i → accepts left[i] right[i] := by
  rw [all_eq_true]
  constructor
  · intro h i hl hr hi
    have hmem : (left[i], right[i]) ∈ (left.drop n).zip (right.drop n) := by
      refine mem_iff_getElem.mpr ⟨i - n, by simp; omega, ?_⟩
      simp [Nat.add_sub_cancel' hi]
    exact h _ hmem
  · intro h pair hpair
    obtain ⟨i, hi, rfl⟩ := mem_iff_getElem.mp hpair
    simp only [length_zip, length_drop, lt_min_iff] at hi
    simpa using h (n + i) (by omega) (by omega) (Nat.le_add_right _ _)

lemma equal_iff {left : Bytes} (hlen : left.length = right.length) :
    item.equal left right ↔ item.Starts right left := by
  have hpair : item.Starts right left ↔ ∀ i (hl : i < left.length) (hr : i < right.length),
      item.Same i left[i] right[i] := by
    constructor
    · intro h i hl hr
      obtain ⟨a, ha, hsame⟩ := h i right[i] (getElem?_eq_getElem hr)
      rw [getElem?_eq_getElem hl] at ha
      cases ha
      exact hsame
    · intro h i b hb
      obtain ⟨hr, rfl⟩ := List.getElem?_eq_some_iff.mp hb
      exact ⟨left[i], getElem?_eq_getElem (by omega), h i (by omega) hr⟩
  rw [hpair, Item.equal, if_neg (not_not.mpr hlen)]
  simp only [Bool.and_eq_true, beq_iff_eq]
  cases hcase : item.icase with
  | true =>
    simp only [if_true, all_zip_drop_iff hlen _ eqIgnoreCase, take_eq_take_iff hlen, Item.Same, hcase,
      Bool.true_eq_false, or_false]
    constructor
    · rintro ⟨hfix, hrest⟩ i hl hr
      split
      · exact hfix i hl hr (by omega)
      · exact hrest i hl hr (by omega)
    · intro h
      refine ⟨fun i hl hr hi => ?_, fun i hl hr hi => ?_⟩
      · have hsame := h i hl hr
        rwa [if_pos (by omega)] at hsame
      · have hsame := h i hl hr
        rwa [if_neg (by omega)] at hsame
  | false =>
    simp only [Bool.false_eq_true, if_false, beq_iff_eq, Item.Same, hcase, or_true, if_true]
    constructor
    · rintro ⟨htake, hdrop⟩ i hl hr
      have heq : left = right := by
        rw [← take_append_drop (min item.fixed left.length) left, htake, hdrop, take_append_drop]
      subst heq
      rfl
    · intro h
      have heq : left = right := ext_getElem hlen h
      subst heq
      exact ⟨rfl, rfl⟩

lemma slice_zero {bs : Bytes} {n : Nat} (accepts : Bytes → Bool) :
    (slice bs 0 n).any accepts ↔ n ≤ bs.length ∧ accepts (bs.take n) := by
  unfold slice
  split <;> simp_all

lemma starts_take_iff :
    short.length ≤ long.length ∧ item.equal (long.take short.length) short ↔
      item.Starts short long := by
  constructor
  · rintro ⟨hle, heql⟩ i b hb
    obtain ⟨a, ha, hsame⟩ := (equal_iff (by simpa using hle)).mp heql i b hb
    rw [getElem?_take] at ha
    split at ha
    · exact ⟨a, ha, hsame⟩
    · cases ha
  · intro h
    refine ⟨h.length_le, (equal_iff (by simpa using h.length_le)).mpr fun i b hb => ?_⟩
    obtain ⟨a, ha, hsame⟩ := h i b hb
    obtain ⟨hlt, -⟩ := List.getElem?_eq_some_iff.mp hb
    exact ⟨a, by rw [getElem?_take, if_pos hlt, ha], hsame⟩

lemma above_iff : item.above short long ↔ item.Starts short long := by
  rw [Item.above, slice_zero, starts_take_iff]

lemma below_iff {directory named : Bytes} :
    item.below directory named ↔ item.Starts named directory ∧
      (directory.length = named.length ∨ directory[named.length]? = some 47) := by
  rw [Item.below, slice_zero, Bool.and_eq_true, ← and_assoc, starts_take_iff]
  simp

lemma names_iff {path : Bytes} :
    item.names path ↔ item.pattern = [] ∨ (item.Starts item.pattern path ∧
      (item.pattern.getLast? = some 47 ∨ path.length = item.pattern.length ∨
        path[item.pattern.length]? = some 47)) := by
  rw [Item.names, Bool.or_eq_true, slice_zero, Bool.and_eq_true, ← and_assoc, starts_take_iff]
  simp [or_assoc]

lemma Item.Starts.of_le {whole : Bytes} (hsh : item.Starts short whole)
    (hlong : item.Starts long whole) (hle : short.length ≤ long.length) :
    item.Starts short long := by
  intro i b hb
  obtain ⟨a, ha, hab⟩ := hsh i b hb
  obtain ⟨hlt, -⟩ := List.getElem?_eq_some_iff.mp hb
  obtain ⟨c, hc⟩ : ∃ c, long[i]? = some c := ⟨_, getElem?_eq_getElem (by omega)⟩
  obtain ⟨a', ha', hac⟩ := hlong i c hc
  cases ha.symm.trans ha'
  exact ⟨c, hc, hac.symm.trans hab⟩

lemma starts_of_isPrefix (h : short <+: long) : item.Starts short long := by
  obtain ⟨rest, rfl⟩ := h
  intro i b hb
  obtain ⟨hlt, -⟩ := List.getElem?_eq_some_iff.mp hb
  exact ⟨b, by rw [getElem?_append_left hlt, hb], .refl item i b⟩

lemma Item.Starts.trans {a b c : Bytes} (hab : item.Starts a b) (hbc : item.Starts b c) :
    item.Starts a c := by
  intro i x hx
  obtain ⟨y, hy, hxy⟩ := hab i x hx
  obtain ⟨z, hz, hyz⟩ := hbc i y hy
  exact ⟨z, hz, hyz.trans hxy⟩

end Comparison

section Items

variable {item : Item} {directory path rest : Bytes}

lemma pattern_eq_named (item : Item) :
    (item.pattern.getLast? = some 47 ∧ item.pattern = item.named ++ [47]) ∨
      (item.pattern.getLast? ≠ some 47 ∧ item.pattern = item.named) := by
  by_cases hsl : item.pattern.getLast? = some 47
  · obtain ⟨init, hinit⟩ := getLast?_eq_some_iff.mp hsl
    refine .inl ⟨hsl, ?_⟩
    rw [Item.named, if_pos hsl, hinit, dropLast_concat]
  · exact .inr ⟨hsl, by rw [Item.named, if_neg hsl]⟩

lemma pattern_eq_nil (h : item.named = []) : item.pattern = [] := by
  rcases pattern_eq_named item with ⟨-, hpat⟩ | ⟨-, hpat⟩
  · have hrel := item.relative
    rw [hpat, h] at hrel
    exact absurd rfl hrel
  · rw [hpat, h]

lemma matchesPattern_iff :
    item.matchesPattern path ↔ item.Starts (item.pattern.take item.literalLen) path ∧
      (item.names path ∨ (item.hasWildcards ∧
        (matchesWithPathname (item.pattern.drop item.fixed) (path.drop item.fixed) item.icase usizeMax
          item.glob).getD false)) := by
  rw [← above_iff, Item.matchesPattern]
  cases item.above (item.pattern.take item.literalLen) path <;> simp

lemma isPrefix_insideOf (directory : Bytes) : directory <+: insideOf directory := by
  unfold insideOf
  split
  · rename_i h
    rw [h]
  · exact prefix_append _ _

lemma length_insideOf (directory : Bytes) : (insideOf directory).length ≤ directory.length + 1 := by
  unfold insideOf
  split <;> simp

lemma slash_after_named (hst : item.Starts item.pattern path) (hnames : item.names path)
    (hne : item.named ≠ []) (hlong : item.named.length < path.length) :
    path[item.named.length]? = some 47 := by
  rcases pattern_eq_named item with ⟨-, hpat⟩ | ⟨hlast, hpat⟩
  · obtain ⟨a, ha, hsame⟩ := hst item.named.length 47 (by rw [hpat]; simp)
    rw [ha, hsame.slash]
  rcases names_iff.mp hnames with hnil | ⟨-, hsl | hlen | hsl⟩
  · exact absurd (hpat.symm.trans hnil) hne
  · exact absurd hsl hlast
  · rw [hlen, hpat] at hlong
    exact absurd hlong (lt_irrefl _)
  · rwa [hpat] at hsl

/-- Nothing below a skipped directory matches. -/
lemma not_matches_of_skip (h : item.directoryPattern directory = .skip)
    (hpath : path = insideOf directory ++ rest) : item.matchesPattern path = false := by
  by_contra hmat
  obtain ⟨hst, hnames⟩ := matchesPattern_iff.mp (Bool.not_eq_false _ ▸ hmat)
  have hins : item.Starts (insideOf directory) path := starts_of_isPrefix ⟨rest, hpath.symm⟩
  have hdir : directory <+: path := (isPrefix_insideOf directory).trans ⟨rest, hpath.symm⟩
  unfold Item.directoryPattern at h
  simp only at h
  split at h
  · cases h
  rename_i hnot
  split at h
  · cases h
  rename_i hntA
  split at h
  · cases h
  rename_i hntW
  simp only [Bool.or_eq_true, beq_iff_eq, Bool.and_eq_true, above_iff, below_iff] at hnot hntA hntW
  push Not at hnot
  by_cases hwild : item.hasWildcards
  · -- the literal start and the directory start the same path
    refine hntW ⟨hwild, ?_⟩
    rcases le_total (item.pattern.take item.literalLen).length (insideOf directory).length with hle | hle
    · exact .inl (hst.of_le hins hle)
    · exact .inr (hins.of_le hst hle)
  · have hlit : item.pattern.take item.literalLen = item.pattern := by
      simpa [Item.hasWildcards] using hwild
    rw [hlit] at hst
    have hnames : item.names path := hnames.resolve_right fun hw => hwild hw.1
    have hnam : item.Starts item.named path := by
      refine Item.Starts.trans (starts_of_isPrefix ?_) hst
      rcases pattern_eq_named item with ⟨-, hpat⟩ | ⟨-, hpat⟩
      · exact ⟨[47], hpat.symm⟩
      · rw [← hpat]
    rcases Nat.lt_or_ge directory.length item.named.length with hlt | hge
    · exact hntA (hins.of_le hnam ((length_insideOf directory).trans hlt))
    have hlow := hnam.of_le (starts_of_isPrefix hdir) hge
    obtain ⟨hlen, hsl⟩ := hnot.2 hlow
    have hlt : item.named.length < directory.length := by omega
    have hat := slash_after_named hst hnames hnot.1 (hlt.trans_le hdir.length_le)
    obtain ⟨tail, rfl⟩ := hdir
    rw [getElem?_append_left hlt] at hat
    exact hsl hat

/-- Everything below a directory that is taken whole matches. -/
lemma matches_of_all (h : item.directoryPattern directory = .all)
    (hpath : path = insideOf directory ++ rest) : item.matchesPattern path := by
  have hwho : item.named = [] ∨ item.below directory item.named := by
    unfold Item.directoryPattern at h
    simp only [Bool.or_eq_true, beq_iff_eq] at h
    split at h
    · assumption
    · split at h
      · cases h
      · split at h <;> cases h
  by_cases hnamed : item.named = []
  · have hpat := pattern_eq_nil hnamed
    refine matchesPattern_iff.mpr ⟨?_, .inl (names_iff.mpr (.inl hpat))⟩
    rw [hpat]
    intro i b hb
    simp at hb
  · obtain ⟨hstarts, hbou⟩ := below_iff.mp (hwho.resolve_left hnamed)
    have hdir : directory ≠ [] := by
      rintro rfl
      exact hnamed (eq_nil_of_length_eq_zero (by simpa using hstarts.length_le))
    have hins : insideOf directory = directory ++ [47] := by rw [insideOf, if_neg hdir]
    have hsl : path[item.named.length]? = some 47 := by
      rw [hpath, hins, append_assoc]
      rcases hbou with hlen | hsl
      · rw [← hlen]
        simp
      · obtain ⟨hlt, -⟩ := List.getElem?_eq_some_iff.mp hsl
        rw [getElem?_append_left hlt, hsl]
    have hnam : item.Starts item.named path :=
      hstarts.trans (starts_of_isPrefix ((isPrefix_insideOf directory).trans ⟨rest, hpath.symm⟩))
    have hglob : item.Starts item.pattern path ∧ item.names path := by
      rcases pattern_eq_named item with ⟨hlast, hpat⟩ | ⟨-, hpat⟩
      · have hst : item.Starts item.pattern path := by
          rw [hpat]
          intro i b hb
          rcases Nat.lt_or_ge i item.named.length with hlt | hge
          · rw [getElem?_append_left hlt] at hb
            exact hnam i b hb
          rw [getElem?_append_right hge, getElem?_singleton] at hb
          split at hb
          · cases hb
            have hi : i = item.named.length := by omega
            exact ⟨47, by rw [hi, hsl], .refl item i 47⟩
          · cases hb
        exact ⟨hst, names_iff.mpr (.inr ⟨hst, .inl hlast⟩)⟩
      · rw [← hpat] at hnam hsl
        exact ⟨hnam, names_iff.mpr (.inr ⟨hnam, .inr (.inr hsl)⟩)⟩
    exact matchesPattern_iff.mpr
      ⟨(starts_of_isPrefix (List.take_prefix _ _)).trans hglob.1, .inl hglob.2⟩

end Items

section Lists

variable {ε : Type} {sat : Requirement → Except ε Bool} {item : Item} {items : List Item}
  {directory path rest : Bytes}

lemma item_not_matches (h : item.directory directory = .skip)
    (hpath : path = insideOf directory ++ rest) : item.matches path sat = .ok false := by
  unfold Item.directory at h
  simp only at h
  split at h
  · cases h
  · rw [Item.matches, not_matches_of_skip h hpath]
    rfl

lemma item_matches (h : item.directory directory = .all)
    (hpath : path = insideOf directory ++ rest) : item.matches path sat = .ok true := by
  unfold Item.directory at h
  simp only at h
  split at h
  · cases h
  rename_i hatt
  have hnil : item.attributes = [] := not_not.mp fun hne => hatt ⟨h, hne⟩
  rw [Item.matches, matches_of_all h hpath, hnil]
  rfl

lemma excludedFrom_eq_all {excl : Prune} (h : excludedFrom directory excl items = .all)
    (hne : excl ≠ .all) : ∃ item ∈ items, item.directory directory = .all := by
  induction items generalizing excl with
  | nil => exact absurd h hne
  | cons item items ih =>
    unfold excludedFrom at h
    simp only at h
    split at h
    · rename_i hmax
      refine ⟨item, .head _, ?_⟩
      rcases max_choice excl (item.directory directory) with hcho | hcho
      · exact absurd (hcho.symm.trans hmax) hne
      · exact hcho.symm.trans hmax
    · rename_i hmax
      obtain ⟨fnd, hmem, hgot⟩ := ih h hmax
      exact ⟨fnd, .tail _ hmem, hgot⟩

lemma le_skip_iff {prune : Prune} : prune ≤ .skip ↔ prune = .skip := by
  cases prune <;> decide

lemma excludedFrom_eq_skip {excl : Prune} (h : excludedFrom directory excl items = .skip) :
    excl = .skip ∧ ∀ item ∈ items, item.directory directory = .skip := by
  induction items generalizing excl with
  | nil => exact ⟨h, fun _ hmem => absurd hmem not_mem_nil⟩
  | cons item items ih =>
    unfold excludedFrom at h
    simp only at h
    split at h
    · cases h
    obtain ⟨hmax, hits⟩ := ih h
    have hle := max_le_iff.mp hmax.le
    refine ⟨le_skip_iff.mp hle.1, fun fnd hmem => ?_⟩
    rcases mem_cons.mp hmem with rfl | hmem
    · exact le_skip_iff.mp hle.2
    · exact hits fnd hmem

lemma anyMatches_eq_false (h : ∀ item ∈ items, item.matches path sat = .ok false) :
    anyMatches path sat items = .ok false := by
  induction items with
  | nil => rfl
  | cons item items ih =>
    rw [anyMatches, h item mem_cons_self]
    exact ih fun fnd hmem => h fnd (.tail _ hmem)

lemma matches_of_anyMatches (h : anyMatches path sat items = .ok false) :
    ∀ item ∈ items, item.matches path sat = .ok false := by
  induction items with
  | nil => exact fun _ hmem => absurd hmem not_mem_nil
  | cons item items ih =>
    obtain ⟨fnd, hgot, h⟩ := bind_ok.mp h
    cases fnd with
    | true => cases h
    | false =>
      intro other hmem
      rcases mem_cons.mp hmem with rfl | hmem
      · exact hgot
      · exact ih h other hmem

lemma meets_ok {reqs : List Requirement} (h : ∀ r ∈ reqs, ∃ b, sat r = .ok b) :
    ∃ b, meets sat reqs = .ok b := by
  induction reqs with
  | nil => exact ⟨true, rfl⟩
  | cons requirement reqs ih =>
    obtain ⟨b, hb⟩ := h requirement (.head _)
    obtain ⟨met, hmet⟩ := ih fun r hr => h r (.tail _ hr)
    rw [meets, hb]
    cases b with
    | true => exact ⟨met, hmet⟩
    | false => exact ⟨false, rfl⟩

lemma anyMatches_eq_true (hans : ∀ item ∈ items, ∀ r ∈ item.attributes, ∃ b, sat r = .ok b)
    (hmem : item ∈ items) (h : item.matches path sat = .ok true) :
    anyMatches path sat items = .ok true := by
  induction items with
  | nil => exact absurd hmem not_mem_nil
  | cons first items ih =>
    have hfirst : ∃ b, first.matches path sat = .ok b := by
      unfold Item.matches
      split
      · exact meets_ok (hans first (.head _))
      · exact ⟨false, rfl⟩
    obtain ⟨b, hb⟩ := hfirst
    rw [anyMatches, hb]
    cases b with
    | true => rfl
    | false =>
      rcases mem_cons.mp hmem with rfl | hmem
      · cases hb.symm.trans h
      · exact ih (fun fnd hgot => hans fnd (.tail _ hgot)) hmem

lemma directory_eq_skip {spec : Pathspec} (h : spec.directory directory = .skip) :
    (∃ item ∈ spec.excludes, item.directory directory = .all) ∨
      (spec.includes ≠ [] ∧ ∀ item ∈ spec.includes, item.directory directory = .skip) := by
  unfold Pathspec.directory at h
  simp only at h
  split at h
  · cases h
  split at h
  · rename_i hexc
    exact .inl (excludedFrom_eq_all hexc (by decide))
  split at h
  · cases h
  cases hmax : (spec.includes.map (·.directory directory)).max? with
  | none =>
    rw [hmax] at h
    cases h
  | some included =>
    rw [hmax, Option.getD_some] at h
    obtain ⟨hmem, hle⟩ := max?_eq_some_iff.mp hmax
    refine .inr ⟨?_, fun item hitem => ?_⟩
    · intro hnil
      rw [hnil] at hmem
      exact absurd hmem not_mem_nil
    · exact le_skip_iff.mp (h ▸ hle _ (mem_map_of_mem hitem))

lemma directory_eq_all {spec : Pathspec} (h : spec.directory directory = .all) :
    (spec.includes = [] ∨ ∃ item ∈ spec.includes, item.directory directory = .all) ∧
      ∀ item ∈ spec.excludes, item.directory directory = .skip := by
  unfold Pathspec.directory at h
  simp only at h
  split at h
  · rename_i hemp
    simp only [Bool.and_eq_true, List.isEmpty_iff] at hemp
    exact ⟨.inl hemp.1, by simp [hemp.2]⟩
  split at h
  · cases h
  rename_i hnot
  split at h
  · cases h
  rename_i hntD
  have hskip : excludedFrom directory .skip spec.excludes = .skip := by
    cases hexc : excludedFrom directory .skip spec.excludes with
    | skip => rfl
    | descend => exact absurd ⟨h, hexc⟩ hntD
    | all => exact absurd hexc hnot
  refine ⟨?_, (excludedFrom_eq_skip hskip).2⟩
  cases hmax : (spec.includes.map (·.directory directory)).max? with
  | none => exact .inl (map_eq_nil_iff.mp (max?_eq_none_iff.mp hmax))
  | some included =>
    rw [hmax, Option.getD_some] at h
    obtain ⟨item, hmem, hitem⟩ := mem_map.mp (max?_eq_some_iff.mp hmax).1
    exact .inr ⟨item, hmem, hitem.trans h⟩

/-- The decision for a directory holds for every path below it: nothing below a skipped directory is
selected, and everything below a directory that is taken whole, when every attribute that the pathspec
asks for has an answer. -/
theorem directory_decides (spec : Pathspec) (satisfied : Requirement → Except ε Bool) (directory rest : Bytes) :
    (spec.directory directory = .skip → spec.matchesWith (insideOf directory ++ rest) satisfied ≠ .ok true) ∧
      (spec.directory directory = .all →
        (∀ item ∈ spec.includes ++ spec.excludes, ∀ r ∈ item.attributes, ∃ b, satisfied r = .ok b) →
        spec.matchesWith (insideOf directory ++ rest) satisfied = .ok true) := by
  constructor
  · intro hskip hmat
    obtain ⟨included, hinc, hmat⟩ := bind_ok.mp hmat
    rcases directory_eq_skip hskip with ⟨item, hitem, hall⟩ | ⟨hne, hnone⟩
    · -- an exclude takes the whole directory
      cases included with
      | false => cases hmat
      | true =>
        obtain ⟨excl, hexc, hmat⟩ := bind_ok.mp hmat
        cases excl with
        | true => cases hmat
        | false =>
          have := (matches_of_anyMatches hexc item hitem).symm.trans (item_matches hall rfl)
          cases this
    · have hnot : anyMatches (insideOf directory ++ rest) satisfied spec.includes = .ok false :=
        anyMatches_eq_false fun item hitem => item_not_matches (hnone item hitem) rfl
      rw [Pathspec.included, if_neg (by simpa using hne), hnot] at hinc
      cases hinc
      cases hmat
  · intro hall hans
    obtain ⟨hincl, hexcl⟩ := directory_eq_all hall
    have hnot : anyMatches (insideOf directory ++ rest) satisfied spec.excludes = .ok false :=
      anyMatches_eq_false fun item hitem => item_not_matches (hexcl item hitem) rfl
    refine bind_ok.mpr ⟨true, ?_, bind_ok.mpr ⟨false, hnot, rfl⟩⟩
    rw [Pathspec.included]
    split
    · rfl
    rename_i hne
    obtain ⟨item, hitem, hwho⟩ := hincl.resolve_left fun hnil => hne (by simp [hnil])
    exact anyMatches_eq_true (fun found hgot => hans found (mem_append_left _ hgot)) hitem
      (item_matches hwho rfl)

def sourcesOnly : Pathspec :=
  let root : Context := ⟨[], false, false, false, false, false, by decide⟩
  ((Pathspec.parse [ascii ":(top,icase)SRC", ascii ":!tests"] (root.withPrefix (ascii "src"))).toOption).getD ⟨[], []⟩

theorem directory_decides_sources :
    sourcesOnly.matchesWith (ascii "src/tests/unit.rs") (fun _ => (.ok true : Except Unit Bool)) ≠ .ok true ∧
      sourcesOnly.matchesWith (ascii "src/bin/main.rs") (fun _ => (.ok true : Except Unit Bool)) = .ok true :=
  ⟨(directory_decides sourcesOnly _ (ascii "src/tests") (ascii "unit.rs")).1 (by decide +kernel),
    (directory_decides sourcesOnly _ (ascii "src/bin") (ascii "main.rs")).2 (by decide +kernel) (by decide +kernel)⟩

end Lists

end Girt.Paths
