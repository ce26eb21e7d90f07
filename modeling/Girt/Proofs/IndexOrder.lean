import Girt.Proofs.IndexPublish

/-!
# One pass over the entries decides what holds of every two

Validation compares neighbours and looks each directory up once. The entries are sorted, so this decides a
relation between any two of them.
-/

namespace Girt.IndexFile
open ByteLib List

namespace Entry

/-- A file and a path below it may stand only in two different conflict stages. -/
def Apart (file below : Entry) : Prop :=
  file.stage ≠ below.stage ∧ file.stage ≠ .normal ∧ below.stage ≠ .normal

end Entry

/-- The entries of an index, any two of them compared. -/
structure Ordered (entries : List Entry) : Prop where
  components : ∀ e ∈ entries, e.Named
  sorted : entries.Pairwise (fun a b => a.key < b.key)
  unmixed : ∀ a ∈ entries, ∀ b ∈ entries, a.path = b.path → a.stage = .normal → b.stage = .normal
  directories : ∀ a ∈ entries, ∀ b ∈ entries, a.path ++ [47] <+: b.path → a.Apart b
  sparse : ∀ a ∈ entries, ∀ b ∈ entries, a.mode = .sparseDirectory → a.path <+: b.path → a = b

/-! ## Neighbours -/

section Neighbours

variable {fmt : ObjectFormat} {lim : Limits} {pos : Nat} {prev : Option Entry} {ents : List Entry}

lemma key_lt_iff {a b : Entry} :
    a.key < b.key ↔ a.path < b.path ∨ a.path = b.path ∧ a.stage.toNat < b.stage.toNat :=
  Prod.Lex.toLex_lt_toLex

lemma path_le_of_key_lt {a b : Entry} (h : a.key < b.key) : a.path ≤ b.path := by
  rcases key_lt_iff.mp h with hlt | ⟨heq, -⟩
  · exact hlt.le
  · exact heq.le

instance followsTrans : IsTrans Entry Follows where
  trans a b c hab hbc := by
    refine ⟨hab.1.trans hbc.1, fun h => hab.2 ⟨?_, h.2⟩⟩
    exact le_antisymm (path_le_of_key_lt hab.1) ((path_le_of_key_lt hbc.1).trans_eq h.1.symm)

lemma stage_ne_normal {a b : Entry} (h : a.key < b.key) (hpath : a.path = b.path) :
    b.stage ≠ .normal := by
  intro hnor
  rcases key_lt_iff.mp h with hlt | ⟨-, hlt⟩
  · exact hlt.ne hpath
  · rw [hnor] at hlt
    cases hlt

lemma isChain_follows_iff : ents.IsChain Follows ↔ ents.Pairwise (·.key < ·.key) ∧
    ∀ a ∈ ents, ∀ b ∈ ents, a.path = b.path → a.stage = .normal → b.stage = .normal := by
  rw [isChain_iff_pairwise]
  constructor
  · intro h
    refine ⟨h.imp And.left, fun a ha b hb hpath => ?_⟩
    let Same (a b : Entry) : Prop := a.path = b.path → (a.stage = .normal ↔ b.stage = .normal)
    have : Std.Symm Same := ⟨fun a b hab hpath => (hab hpath.symm).symm⟩
    have hsame : ents.Pairwise Same := h.imp fun hab hpath =>
      iff_of_false (fun hnor => hab.2 ⟨hpath, hnor⟩) (stage_ne_normal hab.1 hpath)
    exact (hsame.forall_of_forall (fun _ _ _ => Iff.rfl) ha hb hpath).mp
  · rintro ⟨hsort, hunm⟩
    refine hsort.imp_of_mem fun {a b} ha hb hlt => ⟨hlt, fun h => ?_⟩
    exact stage_ne_normal hlt h.1 (hunm a ha b hb h.1 h.2)

/-- Neighbours of which the second does not lie below the first, a sparse directory. -/
def Clear (a b : Entry) : Prop := a.key < b.key ∧ (a.mode = .sparseDirectory → ¬a.path <+: b.path)

instance clearTrans : IsTrans Entry Clear where
  trans a b c hab hbc := by
    refine ⟨hab.1.trans hbc.1, fun hsparse hbelow => hab.2 hsparse ?_⟩
    exact isPrefix_of_le_of_le (path_le_of_key_lt hab.1) (path_le_of_key_lt hbc.1) hbelow

lemma isChain_clear_iff (hsort : ents.Pairwise (·.key < ·.key))
    (hfor : ∀ e ∈ ents, e.Formed fmt lim) : ents.IsChain Clear ↔
      ∀ a ∈ ents, ∀ b ∈ ents, a.mode = .sparseDirectory → a.path <+: b.path → a = b := by
  rw [isChain_iff_pairwise]
  constructor
  · intro h a ha b hb
    let Alone (a b : Entry) : Prop := (a.mode = .sparseDirectory → a.path <+: b.path → a = b) ∧
      (b.mode = .sparseDirectory → b.path <+: a.path → b = a)
    have : Std.Symm Alone := ⟨fun a b hab => hab.symm⟩
    have halo : ents.Pairwise Alone := h.imp_of_mem fun {a b} ha hb hab => by
      refine ⟨fun hspa hlow => absurd hlow (hab.2 hspa), fun hspa hlow => ?_⟩
      have hpath : a.path = b.path := le_antisymm (path_le_of_key_lt hab.1) (le_of_isPrefix hlow)
      exact absurd ((hfor b hb).sparse hspa).2.2.1 (stage_ne_normal hab.1 hpath)
    exact (halo.forall_of_forall (fun _ _ => ⟨fun _ _ => rfl, fun _ _ => rfl⟩) ha hb).1
  · intro h
    refine hsort.imp_of_mem fun {a b} ha hb hlt => ⟨hlt, fun hspa hlow => ?_⟩
    rw [h a ha b hb hspa hlow] at hlt
    exact lt_irrefl _ hlt

end Neighbours

/-! ## Directories above a path -/

section Directories

variable {all ents : List Entry} {path : Bytes} {start i : Nat}

lemma drop_zipIdx (start : Nat) (path : Bytes) :
    path.zipIdx.drop start = (path.drop start).zipIdx start := by
  refine ext_getElem? fun i => ?_
  simp [getElem?_drop, getElem?_zipIdx]

lemma mem_slashesFrom : i ∈ slashesFrom start path ↔ start ≤ i ∧ path[i]? = some 47 := by
  simp only [slashesFrom, drop_zipIdx, mem_map, mem_filter, decide_eq_true_eq, Prod.exists,
    exists_eq_right,
    mk_mem_zipIdx_iff_le_and_getElem?_sub, getElem?_drop]
  exact and_congr_right fun hle => by rw [Nat.add_sub_cancel' hle]

lemma sorted_slashesFrom : (slashesFrom start path).Pairwise (· < ·) := by
  have hzip : ((path.zipIdx.drop start).map Prod.snd).Pairwise (· < ·) := by
    rw [drop_zipIdx, zipIdx_map_snd]
    exact pairwise_lt_range' 1
  exact pairwise_map.mpr ((pairwise_map.mp hzip).filter _)

/-- The directories above a path with the stages at each, deepest first. -/
def ancestorsOf (all : List Entry) (path : Bytes) : List (Nat × Nat) :=
  ((slashesFrom 0 path).map (fun slash => (slash, stagesAt all (path.take slash)))).reverse

lemma dropWhile_reverse {l : List Nat} (h : l.Pairwise (· < ·)) (c : Nat) :
    l.reverse.dropWhile (c ≤ ·) = (l.filter (· < c)).reverse := by
  induction l using reverseRecOn with
  | nil => rfl
  | append_singleton l x ih =>
    obtain ⟨hl, -, hx⟩ := pairwise_append.mp h
    by_cases hc : c ≤ x
    · simp [hc, ih hl]
    have hall : l.filter (· < c) = l := filter_eq_self.mpr fun y hy => by
      have := hx y hy x (mem_singleton_self x)
      simp only [decide_eq_true_eq]
      omega
    simp [hc, hall, not_le.mp hc]

lemma agree_below_common {prev : Bytes} (hi : i < commonPrefix prev path) :
    prev.take i = path.take i ∧ prev[i]? = path[i]? := by
  have hcommon := (commonPrefix_spec prev path).2.2
  have hone := congrArg (fun l : Bytes => l.take i) hcommon
  have htwo := congrArg (fun l : Bytes => l[i]?) hcommon
  simp only [take_take, getElem?_take, Nat.min_eq_left hi.le, if_pos hi] at hone htwo
  exact ⟨hone, htwo⟩

lemma kept_ancestors (prev : Bytes) :
    (ancestorsOf all prev).dropWhile (commonPrefix prev path ≤ ·.1) =
      (((slashesFrom 0 path).filter (· < commonPrefix prev path)).map
        fun slash => (slash, stagesAt all (path.take slash))).reverse := by
  have hsame : (slashesFrom 0 prev).filter (· < commonPrefix prev path) =
      (slashesFrom 0 path).filter (· < commonPrefix prev path) := by
    refine (sorted_slashesFrom.filter _).eq_of_mem_iff (sorted_slashesFrom.filter _) fun i => ?_
    simp only [mem_filter, mem_slashesFrom, decide_eq_true_eq]
    refine and_congr_left fun hi => ?_
    rw [(agree_below_common hi).2]
  rw [ancestorsOf, ← map_reverse, dropWhile_map, ← map_reverse, ← hsame]
  refine (congrArg _ (dropWhile_reverse sorted_slashesFrom _)).trans (map_congr_left fun i hi => ?_)
  rw [mem_reverse, mem_filter, decide_eq_true_eq] at hi
  rw [(agree_below_common hi.2).1]

lemma after_last {l : List Nat} {c : Nat} (h : l.Pairwise (· < ·)) (hc : ∀ i ∈ l, i < c) :
    (∀ i ∈ l, i < (l.getLast?.map (· + 1)).getD 0) ∧ (l.getLast?.map (· + 1)).getD 0 ≤ c := by
  induction l using reverseRecOn with
  | nil => simp
  | append_singleton l x _ =>
    have hlast : ∀ i ∈ l, i < x := fun i hi => (pairwise_append.mp h).2.2 i hi x (mem_singleton_self x)
    have hx : x < c := hc x (mem_append_right l (mem_singleton_self x))
    simp only [getLast?_append, getLast?_singleton, Option.some_or, Option.map_some,
      Option.getD_some, mem_append,
      mem_singleton]
    refine ⟨?_, hx⟩
    rintro i (hi | rfl)
    · exact (hlast i hi).trans (Nat.lt_succ_self x)
    · exact Nat.lt_succ_self i

lemma nextAncestors_eq (prev : Bytes) :
    nextAncestors all prev (ancestorsOf all prev) path = ancestorsOf all path := by
  unfold nextAncestors
  rw [kept_ancestors]
  generalize commonPrefix prev path = c
  have hkept : ∀ i, i ∈ (slashesFrom 0 path).filter (· < c) ↔ path[i]? = some 47 ∧ i < c := by
    simp [mem_slashesFrom]
  obtain ⟨hbf, hle⟩ := after_last (sorted_slashesFrom.filter _) fun i hi => ((hkept i).mp hi).2
  simp only [head?_reverse, getLast?_map, Option.map_map]
  rw [← reverse_append, ← map_append, ancestorsOf]
  congr 2
  refine Pairwise.eq_of_mem_iff (r := (· < ·)) ?_ sorted_slashesFrom fun i => ?_
  · refine pairwise_append.mpr ⟨sorted_slashesFrom.filter _, sorted_slashesFrom, fun a ha b hb => ?_⟩
    exact (hbf a ha).trans_le (mem_slashesFrom.mp hb).1
  rw [mem_append, hkept, mem_slashesFrom, mem_slashesFrom]
  constructor
  · rintro (⟨hsl, -⟩ | ⟨-, hsl⟩)
    · exact ⟨i.zero_le, hsl⟩
    · exact ⟨i.zero_le, hsl⟩
  rintro ⟨-, hsl⟩
  rcases lt_or_ge i c with hi | hi
  · exact .inl ⟨hsl, hi⟩
  · exact .inr ⟨hle.trans hi, hsl⟩

lemma stagesAt_eq (h : all.Pairwise (·.key < ·.key)) (dir : Bytes) :
    stagesAt all dir = (all.filter (·.path = dir)).foldl (· ||| stageBit ·.stage) 0 := by
  have hpat : all.Pairwise (·.path ≤ ·.path) := h.imp path_le_of_key_lt
  have hfrom : ∀ l : List Entry, l.Pairwise (·.path ≤ ·.path) → (∀ e ∈ l, dir ≤ e.path) →
      l.takeWhile (·.path = dir) = l.filter (·.path = dir) := by
    intro l hl hle
    induction l with
    | nil => rfl
    | cons e l ih =>
      obtain ⟨hfirst, hl⟩ := pairwise_cons.mp hl
      by_cases he : e.path = dir
      · simp [he, ih hl fun e' he' => hle e' (mem_cons_of_mem _ he')]
      have hlt := lt_of_le_of_ne (hle e (.head _)) (Ne.symm he)
      have hnone : l.filter (·.path = dir) = [] :=
        filter_eq_nil_iff.mpr fun e' he' => by simpa using (hlt.trans_le (hfirst e' he')).ne'
      simp [he, hnone]
  rw [stagesAt]
  congr 1
  clear h
  induction all with
  | nil => rfl
  | cons e all ih =>
    obtain ⟨hfirst, hrest⟩ := pairwise_cons.mp hpat
    by_cases he : e.path < dir
    · simp [he, he.ne, ih hrest]
    have hle : ∀ e' ∈ e :: all, dir ≤ e'.path := by
      simp only [forall_mem_cons]
      exact ⟨not_lt.mp he, fun e' he' => (not_lt.mp he).trans (hfirst e' he')⟩
    rw [dropWhile_cons_of_neg (by simpa using he)]
    exact hfrom _ hpat hle

lemma foldl_stageBit {P : Nat → Prop} (hor : ∀ a b, P (a ||| b) ↔ P a ∨ P b) (l : List Entry)
    (init : Nat) :
    P (l.foldl (· ||| stageBit ·.stage) init) ↔ P init ∨ ∃ e ∈ l, P (stageBit e.stage) := by
  induction l generalizing init with
  | nil => simp
  | cons e l ih =>
    rw [foldl_cons, ih, hor]
    simp [or_assoc]

lemma collides_iff (l : List Entry) (below : Entry) :
    ¬collides below.stage (l.foldl (· ||| stageBit ·.stage) 0) ↔ ∀ file ∈ l, file.Apart below := by
  have hsome := foldl_stageBit (P := (· ≠ 0)) (by simp [Nat.or_eq_zero_iff, or_iff_not_and_not]) l 0
  have hmask := foldl_stageBit (P := fun a => a &&& (stageBit below.stage ||| stageBit .normal) ≠ 0)
    (by simp [Nat.and_or_distrib_right, Nat.or_eq_zero_iff, or_iff_not_and_not]) l 0
  have hbit : ∀ s t : Stage, stageBit s &&& (stageBit t ||| stageBit .normal) ≠ 0 ↔ s = t ∨ s = .normal := by
    intro s t
    cases s <;> cases t <;> decide
  have hne : ∀ s : Stage, stageBit s ≠ 0 := by
    intro s
    cases s <;> decide
  simp only [hbit, ne_eq, not_true_eq_false, false_or, Nat.zero_and] at hsome hmask
  simp only [collides, Bool.and_eq_true, Bool.or_eq_true, decide_eq_true_eq, ne_eq, hsome, hmask,
    Entry.Apart]
  constructor
  · intro h file hfile
    have hsome : ∃ e ∈ l, ¬stageBit e.stage = 0 := ⟨file, hfile, hne file.stage⟩
    exact ⟨fun hsta => h ⟨hsome, .inl ⟨file, hfile, .inl hsta⟩⟩,
      fun hnor => h ⟨hsome, .inl ⟨file, hfile, .inr hnor⟩⟩, fun hlow => h ⟨hsome, .inr hlow⟩⟩
  · rintro h ⟨⟨file, hfile, -⟩, ⟨e, he, hsta | hnor⟩ | hlow⟩
    · exact (h e he).1 hsta
    · exact (h e he).2.1 hnor
    · exact (h file hfile).2.2 hlow

lemma take_slash_iff {file : Bytes} :
    (∃ slash ∈ slashesFrom 0 path, file = path.take slash) ↔ file ++ [47] <+: path := by
  constructor
  · rintro ⟨slash, hsl, rfl⟩
    obtain ⟨hlt, hget⟩ := List.getElem?_eq_some_iff.mp (mem_slashesFrom.mp hsl).2
    rw [← hget, take_append_getElem hlt]
    exact take_prefix _ _
  · rintro ⟨rest, rfl⟩
    exact ⟨file.length, mem_slashesFrom.mpr ⟨Nat.zero_le _, by simp⟩, by simp⟩

lemma collisions_iff (hsort : all.Pairwise (·.key < ·.key)) (below : Entry) :
    ¬(ancestorsOf all below.path).any (collides below.stage ·.2) ↔
      ∀ file ∈ all, file.path ++ [47] <+: below.path → file.Apart below := by
  simp only [ancestorsOf, any_reverse, any_map, any_eq_true, not_exists, not_and, Function.comp_apply,
    stagesAt_eq hsort, collides_iff, mem_filter, decide_eq_true_eq, and_imp, ← take_slash_iff,
    forall_exists_index]
  exact ⟨fun h file hfile slash hsl hpath => h slash hsl file hfile hpath,
    fun h slash hsl file hfile hpath => h file hfile slash hsl hpath⟩

lemma checkCollisions_iff (hsort : all.Pairwise (·.key < ·.key)) {pos : Nat} {prev : Bytes}
    {u : Unit} (hens : ents.Pairwise (·.key < ·.key)) :
    checkCollisions all pos prev (ancestorsOf all prev) ents = .ok u ↔ ents.IsChain Clear ∧
      ∀ below ∈ ents, ∀ file ∈ all, file.path ++ [47] <+: below.path → file.Apart below := by
  induction ents generalizing pos prev with
  | nil => simp [checkCollisions]
  | cons ent ents ih =>
    obtain ⟨hfirst, hens⟩ := pairwise_cons.mp hens
    have hnext : ¬(ent.mode = .sparseDirectory ∧
        (ents.head?.any fun next => ent.path.isPrefixOf next.path)) ↔
        ∀ next ∈ ents.head?, Clear ent next := by
      cases ents with
      | nil => simp
      | cons next ents => simp [Clear, hfirst next mem_cons_self]
    simp only [checkCollisions, nextAncestors_eq, bind_ok, reject_ok, hnext, collisions_iff hsort,
      ih hens, isChain_cons, forall_mem_cons, exists_const]
    tauto

lemma validateEntries_iff {format : ObjectFormat} {limits : Limits} :
    validateEntries format ents limits = .ok () ↔
      (∀ e ∈ ents, e.Formed format limits) ∧ Ordered ents := by
  have hemp : ancestorsOf ents [] = [] := rfl
  simp only [validateEntries, bind_ok, checkEntries_iff, exists_const, Option.toList_none, nil_append,
    isChain_follows_iff]
  constructor
  · rintro ⟨⟨hfor, hnam, hsort, hunm⟩, h⟩
    rw [← hemp, checkCollisions_iff hsort hsort, isChain_clear_iff hsort hfor] at h
    exact ⟨hfor, hnam, hsort, hunm, fun a ha b hb => h.2 b hb a ha, h.1⟩
  rintro ⟨hfor, hnam, hsort, hunm, hdir, hspa⟩
  refine ⟨⟨hfor, hnam, hsort, hunm⟩, ?_⟩
  rw [← hemp, checkCollisions_iff hsort hsort, isChain_clear_iff hsort hfor]
  exact ⟨hspa, fun b hb a ha => hdir a ha b hb⟩

end Directories

/-- The entries of an index are accepted exactly when each of them is well formed on its own and
any two of them fit together. -/
theorem validate_accepts_iff (format : ObjectFormat) (entries : List Entry) (limits : Limits) :
    validateEntries format entries limits = .ok () ↔
      (∀ e ∈ entries, e.Formed format limits) ∧ Ordered entries :=
  validateEntries_iff

/-- One named entry whose identity has another format than the index: no two entries conflict, and
the entry is refused. -/
theorem validate_refuses_format : Ordered [sampleEntry "a" false] ∧
    validateEntries .sha256 [sampleEntry "a" false] sampleLimits = .error (.objectFormat .sha256 .sha1) := by
  refine ⟨⟨?_, by simp, by simp, ?_, by simp⟩, by decide +kernel⟩
  · simp only [mem_singleton, forall_eq, Entry.Named]
    decide
  · simp only [mem_singleton, forall_eq]
    exact fun hlow => absurd hlow.length_le (by decide)

end Girt.IndexFile
