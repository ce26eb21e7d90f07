import Girt.Status.Racy
import Girt.Proofs.IndexEdit

/-!
# The cached-stat shortcut under every interleaving

The stamp of a trusted entry is from before its words were taken, so any later write of its file gets another.
-/

namespace Girt.Status

open ByteLib IndexFile List
open Index (racy recordOne smudge smudgeFrom)

variable {entry : Entry} {world next : World}
variable {i s t : Nat} {draft : Draft}

section Times

variable {gran s t : Nat}

lemma stamp_le (gran t : Nat) : stamp gran t ≤ t := Nat.div_mul_le_self t gran

lemma stamp_mono (h : s ≤ t) : stamp gran s ≤ stamp gran t :=
  Nat.mul_le_mul_right _ (Nat.div_le_div_right h)

lemma stamp_div_second (hpos : 0 < gran) (hdiv : gran ∣ second) (t : Nat) :
    stamp gran t / second = t / second := by
  obtain ⟨k, hk⟩ := hdiv
  rw [stamp, hk, ← Nat.div_div_eq_div_mul, Nat.mul_div_cancel _ hpos, Nat.div_div_eq_div_mul]

lemma timestamp_seconds (h : t < 2 ^ 32 * second) : (timestamp t).seconds.toNat = t / second := by
  have hlt : t / second < 2 ^ 32 := Nat.div_lt_of_lt_mul (by rw [Nat.mul_comm]; exact h)
  rw [timestamp, UInt32.toNat_ofNat', Nat.mod_eq_of_lt hlt]

lemma timestamp_nanoseconds (t : Nat) : (timestamp t).nanoseconds.toNat = t % second := by
  have hlt : t % second < 2 ^ 32 := lt_trans (Nat.mod_lt _ (by decide)) (by decide)
  rw [timestamp, UInt32.toNat_ofNat', Nat.mod_eq_of_lt hlt]

lemma timestamp_inj (hs : s < 2 ^ 32 * second) (ht : t < 2 ^ 32 * second)
    (h : timestamp s = timestamp t) : s = t := by
  have hsec : s / second = t / second := by
    rw [← timestamp_seconds hs, ← timestamp_seconds ht, h]
  have hrest : s % second = t % second := by
    rw [← timestamp_nanoseconds, ← timestamp_nanoseconds, h]
  rw [← Nat.div_add_mod s second, ← Nat.div_add_mod t second, hsec, hrest]

lemma racy_timestamp (hs : s < 2 ^ 32 * second) (ht : t < 2 ^ 32 * second) :
    racy (timestamp s) (timestamp t) ↔ s ≤ t := by
  have hsec : 0 < second := by decide
  have hsdiv := Nat.div_add_mod s second
  have htdiv := Nat.div_add_mod t second
  have hsmod := Nat.mod_lt s hsec
  have htmod := Nat.mod_lt t hsec
  simp only [racy, Bool.or_eq_true, Bool.and_eq_true, decide_eq_true_eq, UInt32.lt_iff_toNat_lt,
    UInt32.le_iff_toNat_le, ← UInt32.toNat_inj, timestamp_seconds hs, timestamp_seconds ht,
    timestamp_nanoseconds]
  generalize s / second = a at *
  generalize t / second = b at *
  constructor
  · rintro (hlt | ⟨rfl, hle⟩)
    · have : second * (a + 1) ≤ second * b := Nat.mul_le_mul_left _ hlt
      rw [Nat.mul_add] at this
      omega
    · omega
  · intro hle
    rcases Nat.lt_trichotomy a b with hlt | rfl | hgt
    · exact .inl hlt
    · exact .inr ⟨rfl, by omega⟩
    · have : second * (b + 1) ≤ second * a := Nat.mul_le_mul_left _ hgt
      rw [Nat.mul_add] at this
      omega

end Times

/-! ## What a commit writes -/

lemma mem_smudgeFrom {thr : Timestamp} {ents : List Entry} {pos : Nat} {ver : List Nat}
    (h : entry ∈ smudgeFrom thr pos ver ents) :
    ∃ i old, ents[i]? = some old ∧
      (entry = smudge thr old ∨ (entry = old ∧ pos + i ∈ ver)) := by
  induction ents generalizing pos ver with
  | nil => cases h
  | cons first ents ih =>
    have hrest : ∀ {ver' : List Nat}, ver' ⊆ ver →
        entry ∈ smudgeFrom thr (pos + 1) ver' ents →
        ∃ i old, (first :: ents)[i]? = some old ∧
          (entry = smudge thr old ∨ (entry = old ∧ pos + i ∈ ver)) := by
      intro ver' hsub hmem
      obtain ⟨i, old, hold, hcas⟩ := ih hmem
      refine ⟨i + 1, old, by simpa using hold, ?_⟩
      rcases hcas with hsmu | ⟨hsame, hpos⟩
      · exact .inl hsmu
      · exact .inr ⟨hsame, hsub (by rw [show pos + (i + 1) = pos + 1 + i by omega]; exact hpos)⟩
    rw [smudgeFrom] at h
    split at h
    · rename_i hhead
      rcases mem_cons.mp h with rfl | h
      · exact ⟨0, entry, rfl, .inr ⟨rfl, mem_of_mem_head? hhead⟩⟩
      · exact hrest (fun _ hmem => mem_of_mem_tail hmem) h
    · rcases mem_cons.mp h with rfl | h
      · exact ⟨0, first, rfl, .inl rfl⟩
      · exact hrest (List.Subset.refl ver) h

lemma mem_smudgeRacyEntries {idx : Index} {thr : Timestamp} {ver : List Nat}
    (h : entry ∈ (idx.smudgeRacyEntries thr ver).entries) :
    ∃ i old, idx.entries[i]? = some old ∧ (entry = smudge thr old ∨ (entry = old ∧ i ∈ ver)) := by
  rw [smudgeRacyEntries_entries] at h
  obtain ⟨i, old, hold, hcas⟩ := mem_smudgeFrom h
  rw [Nat.zero_add] at hcas
  exact ⟨i, old, hold, hcas⟩

def recordedWords (started : UInt32) (stat : Stat) : Stat :=
  if stat.mtime.seconds ≥ started then { stat with size := 0 } else stat

lemma recordStat_entries (idx : Index) (ver : List (Nat × Stat)) (started : UInt32) :
    (idx.recordStat ver started).entries = ver.foldl (recordOne started) idx.entries := by
  unfold Index.recordStat
  split
  · rename_i hnil
    rw [hnil]
    rfl
  · rfl

lemma getElem?_recordStat {started : UInt32} {ver : List (Nat × Stat)} {ents : List Entry}
    (h : (ver.foldl (recordOne started) ents)[i]? = some entry) :
    (ents[i]? = some entry ∧ i ∉ ver.map Prod.fst) ∨
      ∃ old stat, ents[i]? = some old ∧ (i, stat) ∈ ver ∧
        entry = { old with stat := recordedWords started stat } := by
  induction ver generalizing ents with
  | nil => exact .inl ⟨h, by simp⟩
  | cons one ver ih =>
    obtain ⟨p, words⟩ := one
    have hone : (recordOne started ents (p, words))[i]? =
        (fun old : Entry => if p = i then { old with stat := recordedWords started words } else old) <$> ents[i]? := by
      rw [recordOne, getElem?_modify]
      rfl
    rcases ih h with ⟨hsame, hnot⟩ | ⟨old, stat, hold, hmem, rfl⟩
    · rw [hone] at hsame
      obtain ⟨old, hold, hen⟩ := Option.map_eq_some_iff.mp hsame
      by_cases hp : p = i
      · rw [if_pos hp] at hen
        exact .inr ⟨old, words, hold, by rw [hp]; exact mem_cons_self, hen.symm⟩
      rw [if_neg hp] at hen
      refine .inl ⟨hen ▸ hold, ?_⟩
      rw [map_cons, mem_cons]
      rintro (rfl | hmem)
      · exact hp rfl
      · exact hnot hmem
    · rw [hone] at hold
      obtain ⟨first, hfirst, hen⟩ := Option.map_eq_some_iff.mp hold
      refine .inr ⟨first, stat, hfirst, .tail _ hmem, ?_⟩
      rw [← hen]
      split <;> rfl

/-! ## The invariant -/

/-- What tells a later write apart: another stamp, or another second where only seconds are
compared. -/
def Before (minimal : Bool) (s t : Nat) : Prop :=
  if minimal then s / second < t / second else s < t

variable {gran granularity : Nat} {blob : ObjectId → Option Bytes} {minimal : Bool}

/-- The file at an entry's path still holds its blob, or was written at `t` or later. -/
def SameOrLater (blob : ObjectId → Option Bytes) (world : World) (entry : Entry) (later : Nat → Prop) : Prop :=
  ∀ file, world.files entry.path = some file → blob entry.id = some file.bytes ∨ later file.mtime

/-- Words that can be trusted: without a size, or from a stamp before the present one, and from
before any write that changed the file. -/
def Trusted (gran : Nat) (blob : ObjectId → Option Bytes) (minimal : Bool) (world : World) (entry : Entry) : Prop :=
  entry.stat.size = 0 ∨ ∃ m, entry.stat.mtime = timestamp m ∧ Before minimal m (stamp gran world.now) ∧
    m < 2 ^ 32 * second ∧ SameOrLater blob world entry (fun mtime => Before minimal m mtime)

/-- Words taken at time `t`: the stamp is not later, and neither is that of any write that changed
the file since. -/
def Taken (gran : Nat) (blob : ObjectId → Option Bytes) (world : World) (entry : Entry) (mtime : Timestamp)
    (t : Nat) : Prop :=
  t ≤ world.now ∧ ∃ m, mtime = timestamp m ∧ m ≤ stamp gran t ∧
    SameOrLater blob world entry (fun later => stamp gran t ≤ later)

structure Invariant (gran : Nat) (blob : ObjectId → Option Bytes) (minimal : Bool) (world : World) : Prop where
  now_lt : world.now < 2 ^ 32 * second
  mtime_le : ∀ path file, world.files path = some file → file.mtime ≤ stamp gran world.now
  locked_le : ∀ draft, world.draft = some draft → draft.locked ≤ world.now
  recorded : ∀ entry t, (entry, t) ∈ world.recorded → Taken gran blob world entry entry.stat.mtime t
  verified : ∀ draft, world.draft = some draft → ∀ position stat, (position, stat) ∈ draft.verified →
    ∀ entry, draft.index.entries[position]? = some entry →
      ∃ t, draft.locked ≤ t ∧ Taken gran blob world entry stat.mtime t
  ready : ∀ index, world.ready = some index → ∀ entry ∈ index.entries, Trusted gran blob minimal world entry
  published : ∀ p, world.published = some p → ∀ entry ∈ p.index.entries, Trusted gran blob minimal world entry

lemma Before.lt (h : Before minimal s t) : s < t := by
  cases minimal with
  | true => exact Nat.lt_of_div_lt_div h
  | false => exact h

lemma Before.trans_le {u : Nat} (h : Before minimal s t) (hle : t ≤ u) : Before minimal s u := by
  cases minimal with
  | true => exact lt_of_lt_of_le h (Nat.div_le_div_right hle)
  | false => exact lt_of_lt_of_le h hle

lemma before_of_div_lt (h : s / second < t / second) : Before minimal s t := by
  cases minimal with
  | true => exact h
  | false => exact Nat.lt_of_div_lt_div h

/-- The effect of a step on the files: time passes, and a file that changes is stamped now. -/
structure Passes (gran : Nat) (world next : World) : Prop where
  now_le : world.now ≤ next.now
  files : ∀ path file, next.files path = some file →
    world.files path = some file ∨ file.mtime = stamp gran next.now

lemma SameOrLater.passes {later : Nat → Prop}
    (h : SameOrLater blob world entry later) (hpass : Passes gran world next)
    (hnow : later (stamp gran next.now)) : SameOrLater blob next entry later := by
  intro file hfile
  rcases hpass.files _ file hfile with hold | hmti
  · exact h file hold
  · rw [hmti]
    exact .inr hnow

lemma Trusted.passes (h : Trusted gran blob minimal world entry)
    (hpass : Passes gran world next) : Trusted gran blob minimal next entry := by
  rcases h with hzero | ⟨m, hm, hbf, hlt, hsame⟩
  · exact .inl hzero
  · have hbf := hbf.trans_le (stamp_mono hpass.now_le)
    exact .inr ⟨m, hm, hbf, hlt, hsame.passes hpass hbf⟩

lemma Taken.passes {mtime : Timestamp} (h : Taken gran blob world entry mtime t)
    (hpass : Passes gran world next) : Taken gran blob next entry mtime t := by
  obtain ⟨ht, m, hm, hle, hsame⟩ := h
  have ht := le_trans ht hpass.now_le
  exact ⟨ht, m, hm, hle, hsame.passes hpass (stamp_mono ht)⟩

lemma taken_now (h : Invariant gran blob minimal world) {file : WorkFile}
    (hfile : world.files entry.path = some file) (hblob : blob entry.id = some file.bytes) :
    Taken gran blob world entry (indexStat file).mtime world.now := by
  refine ⟨le_rfl, file.mtime, rfl, h.mtime_le _ file hfile, ?_⟩
  intro other hoth
  rw [hfile] at hoth
  cases hoth
  exact .inl hblob

/-- When a commit may publish the words of an entry it does not verify: they are those of the index it
replaces, or they were taken since that index was written, where only seconds are compared with stamps
of whole seconds. A first commit may publish words that were taken after their stamp had passed. -/
def CommitSafe (gran : Nat) (minimal : Bool) (world : World) (draft : Draft) : Prop :=
  ∀ i entry, draft.index.entries[i]? = some entry → i ∉ draft.verified.map Prod.fst →
    entry.stat.size = 0 ∨
      (∃ m t, (entry, t) ∈ world.recorded ∧ entry.stat.mtime = timestamp m ∧ m < 2 ^ 32 * second ∧
        Before minimal m (stamp gran t)) ∨
      ∃ p, world.published = some p ∧ (entry ∈ p.index.entries ∨
        ∃ t, (entry, t) ∈ world.recorded ∧ p.time ≤ t ∧ (minimal = true → gran = second))

/-- Words are trusted when their stamp is told apart from the time they were taken at. -/
lemma Taken.trusted (h : Taken gran blob world entry entry.stat.mtime t) (hnow : world.now < 2 ^ 32 * second)
    (hbf : ∀ m < 2 ^ 32 * second, entry.stat.mtime = timestamp m → Before minimal m (stamp gran t)) :
    Trusted gran blob minimal world entry := by
  obtain ⟨htnow, m, hm, hmle, hsame⟩ := h
  have hmul : m < 2 ^ 32 * second := by
    have := stamp_le gran t
    omega
  have hbf := hbf m hmul hm
  exact .inr ⟨m, hm, hbf.trans_le (stamp_mono htnow), hmul,
    fun file hfile => (hsame file hfile).imp_right hbf.trans_le⟩

lemma smudge_trusted (hinv : Invariant gran blob minimal world)
    (hsafe : CommitSafe gran minimal world draft) {old : Entry}
    (hold : draft.index.entries[i]? = some old) (hver : i ∉ draft.verified.map Prod.fst) :
    Trusted gran blob minimal world (smudge (threshold gran world) old) := by
  unfold smudge
  split
  · exact .inl rfl
  rename_i hracy
  rcases hsafe i old hold hver with
    hzero | ⟨m, t, ht, hm, hmul, hbf⟩ | ⟨p, hp, hcar | ⟨t, ht, htime, hwho⟩⟩
  · exact .inl hzero
  · refine (hinv.recorded old t ht).trusted hinv.now_lt fun m' hlt hm' => ?_
    exact timestamp_inj hlt hmul (hm'.symm.trans hm) ▸ hbf
  · exact hinv.published p hp old hcar
  refine (hinv.recorded old t ht).trusted hinv.now_lt fun m hmul hm => ?_
  have hlate : min (stamp gran p.time) world.now < 2 ^ 32 * second := min_lt_of_right_lt hinv.now_lt
  have hear : m < min (stamp gran p.time) world.now := by
    rw [hm, threshold, hp] at hracy
    by_contra hge
    exact hracy ((racy_timestamp hlate hmul).mpr (not_lt.mp hge))
  have hsta : m < stamp gran t := by
    have := @stamp_mono gran _ _ htime
    omega
  -- with whole-second stamps the strict inequality is one of seconds
  unfold Before
  split
  · rename_i hmin
    rw [stamp, hwho hmin] at hsta ⊢
    rw [Nat.mul_div_cancel _ (by decide)]
    exact Nat.div_lt_of_lt_mul (by rw [Nat.mul_comm]; exact hsta)
  · exact hsta

lemma verified_trusted (hpos : 0 < gran) (hdiv : gran ∣ second)
    (hinv : Invariant gran blob minimal world) (hdr : world.draft = some draft) {old : Entry}
    {stat : Stat} (hold : draft.index.entries[i]? = some old) (hstat : (i, stat) ∈ draft.verified) :
    Trusted gran blob minimal world { old with stat := recordedWords draft.started stat } := by
  unfold recordedWords
  split
  · exact .inl rfl
  rename_i hold'
  obtain ⟨t, hloc, htook⟩ := hinv.verified draft hdr i stat hstat old hold
  have hlocked := hinv.locked_le draft hdr
  have hnow := hinv.now_lt
  refine Taken.trusted htook hnow fun m hmul (hm : stat.mtime = timestamp m) => ?_
  have hsta : draft.started.toNat = draft.locked / second := by
    have hlt : draft.locked / second < 2 ^ 32 := Nat.div_lt_of_lt_mul (by rw [Nat.mul_comm]; omega)
    rw [Draft.started, UInt32.toNat_ofNat', Nat.mod_eq_of_lt hlt]
  have hsec : m / second < draft.locked / second := by
    rw [hm, ge_iff_le, UInt32.le_iff_toNat_le, timestamp_seconds hmul, hsta] at hold'
    omega
  apply before_of_div_lt
  rw [stamp_div_second hpos hdiv]
  exact lt_of_lt_of_le hsec (Nat.div_le_div_right hloc)

lemma commitVerified_trusted (hpos : 0 < gran) (hdiv : gran ∣ second)
    (hinv : Invariant gran blob minimal world)
    (hdr : world.draft = some draft) (hsafe : CommitSafe gran minimal world draft)
    (hen : entry ∈ (commitVerified gran world draft).entries) :
    Trusted gran blob minimal world entry := by
  obtain ⟨i, old, hold, hen⟩ := mem_smudgeRacyEntries hen
  rw [recordStat_entries] at hold
  rcases getElem?_recordStat hold with ⟨hsame, hnot⟩ | ⟨first, stat, hfirst, hstat, rfl⟩
  · rcases hen with rfl | ⟨-, hmem⟩
    · exact smudge_trusted hinv hsafe hsame hnot
    · exact absurd hmem hnot
  have htru := verified_trusted hpos hdiv hinv hdr hfirst hstat
  rcases hen with rfl | ⟨rfl, -⟩
  · unfold smudge
    split
    · exact .inl rfl
    · exact htru
  · exact htru

lemma Invariant.passes (h : Invariant gran blob minimal world)
    (hpass : Passes gran world next) (hnow : next.now < 2 ^ 32 * second) (hrec : next.recorded = world.recorded)
    (hdr : next.draft = world.draft ∨
      ∀ draft, next.draft = some draft → draft.verified = [] ∧ draft.locked ≤ next.now)
    (hrdy : ∀ idx, next.ready = some idx → ∀ entry ∈ idx.entries, Trusted gran blob minimal world entry)
    (hpub : ∀ p, next.published = some p → ∀ entry ∈ p.index.entries, Trusted gran blob minimal world entry) :
    Invariant gran blob minimal next := by
  refine ⟨hnow, ?_, ?_, ?_, ?_, ?_, ?_⟩
  · intro path file hfile
    rcases hpass.files path file hfile with hold | hmti
    · exact le_trans (h.mtime_le path file hold) (stamp_mono hpass.now_le)
    · exact le_of_eq hmti
  · intro draft hnext
    rcases hdr with hsame | hfr
    · exact le_trans (h.locked_le draft (hsame ▸ hnext)) hpass.now_le
    · exact (hfr draft hnext).2
  · intro entry t ht
    rw [hrec] at ht
    exact (h.recorded entry t ht).passes hpass
  · intro draft hnext pos stat hstat entry hen
    rcases hdr with hsame | hnone
    · obtain ⟨t, hloc, htook⟩ := h.verified draft (hsame ▸ hnext) pos stat hstat entry hen
      exact ⟨t, hloc, htook.passes hpass⟩
    · rw [(hnone draft hnext).1] at hstat
      cases hstat
  · intro idx hidx entry hen
    exact (hrdy idx hidx entry hen).passes hpass
  · intro p hp entry hen
    exact (hpub p hp entry hen).passes hpass

lemma passes_refl (hnow : next.now = world.now) (hfil : next.files = world.files) :
    Passes gran world next :=
  ⟨le_of_eq hnow.symm, fun _ _ h => .inl (hfil ▸ h)⟩

/-- Every step keeps the invariant, provided that a commit is safe. -/
lemma invariant_step (hpos : 0 < gran) (hdiv : gran ∣ second)
    (h : Invariant gran blob minimal world) (step : Step gran blob world next)
    (hsafe : ∀ draft, world.draft = some draft → next.ready = none ∨ CommitSafe gran minimal world draft) :
    Invariant gran blob minimal next := by
  cases step with
  | tick hle hlt => exact h.passes ⟨hle, fun path file hfile => .inl hfile⟩ hlt rfl (.inl rfl) h.ready h.published
  | rewrite path file hmti hcti =>
    refine h.passes ⟨le_rfl, ?_⟩ h.now_lt rfl (.inl rfl) h.ready h.published
    intro other found hgot
    change (if other = path then some file else world.files other) = some found at hgot
    split at hgot
    · cases hgot
      exact .inr hmti
    · exact .inl hgot
  | remove path =>
    refine h.passes ⟨le_rfl, ?_⟩ h.now_lt rfl (.inl rfl) h.ready h.published
    intro other found hgot
    change (if other = path then none else world.files other) = some found at hgot
    split at hgot
    · cases hgot
    · exact .inl hgot
  | record entry hfile hstat hblob =>
    refine ⟨h.now_lt, h.mtime_le, h.locked_le, ?_, h.verified, h.ready, h.published⟩
    intro other t hmem
    rcases mem_cons.mp hmem with heq | hmem
    · cases heq
      rw [hstat]
      exact taken_now h hfile hblob
    · exact h.recorded other t hmem
  | lock hfree hidx =>
    refine h.passes (passes_refl rfl rfl) h.now_lt rfl (.inr ?_) h.ready h.published
    intro draft hdr
    cases hdr
    exact ⟨rfl, le_rfl⟩
  | edit hdr hori =>
    have hloc := h.locked_le _ hdr
    refine h.passes (passes_refl rfl rfl) h.now_lt rfl (.inr ?_) h.ready h.published
    intro next hnext
    cases hnext
    exact ⟨rfl, hloc⟩
  | verify position hdr hen hord hfile hblob =>
    have hloc := h.locked_le _ hdr
    refine ⟨h.now_lt, h.mtime_le, ?_, h.recorded, ?_, h.ready, h.published⟩
    · intro next hnext
      cases hnext
      exact hloc
    intro next hnext other stat hstat entry hoth
    cases hnext
    rcases mem_append.mp hstat with hstat | hstat
    · exact h.verified _ hdr other stat hstat entry hoth
    rw [mem_singleton] at hstat
    cases hstat
    rw [hen] at hoth
    cases hoth
    exact ⟨world.now, hloc, taken_now h hfile hblob⟩
  | commit hdr hver =>
    rcases hsafe _ hdr with hnone | hcommit
    · cases hnone
    refine h.passes (passes_refl rfl rfl) h.now_lt rfl (.inr (by intro d hd; cases hd)) ?_ h.published
    rintro index ⟨⟩ entry hen
    refine commitVerified_trusted hpos hdiv h hdr hcommit ?_
    rwa [commitVerified, hver, Index.recordStat, if_pos rfl]
  | commitVerified hdr =>
    rcases hsafe _ hdr with hnone | hcommit
    · cases hnone
    refine h.passes (passes_refl rfl rfl) h.now_lt rfl (.inr (by intro d hd; cases hd)) ?_ h.published
    rintro index ⟨⟩ entry hen
    exact commitVerified_trusted hpos hdiv h hdr hcommit hen
  | publish hrdy =>
    refine h.passes (passes_refl rfl rfl) h.now_lt rfl (.inl rfl) (by intro index hidx; cases hidx) ?_
    intro p hp entry hen
    cases hp
    exact h.ready _ hrdy entry hen
  | abort =>
    exact h.passes (passes_refl rfl rfl) h.now_lt rfl (.inr (by intro d hd; cases hd))
      (by intro index hidx; cases hidx) h.published

/-- Runs whose commits are safe for scans that compare whole seconds only if `minimal`. -/
inductive SafeRun (gran : Nat) (blob : ObjectId → Option Bytes) (minimal : Bool) : World → Prop
  | start {world : World} (h : Initial gran world) : SafeRun gran blob minimal world
  | step {world next : World} (run : SafeRun gran blob minimal world) (h : Step gran blob world next)
      (safe : ∀ draft, world.draft = some draft → next.ready = none ∨ CommitSafe gran minimal world draft) :
      SafeRun gran blob minimal next

lemma invariant_run (hpos : 0 < gran) (hdiv : gran ∣ second)
    (run : SafeRun gran blob minimal world) : Invariant gran blob minimal world := by
  induction run with
  | start h =>
    obtain ⟨hnow, hpub, hdr, hrdy, hrec, hfil⟩ := h
    refine ⟨hnow, ?_, ?_, ?_, ?_, ?_, ?_⟩
    · intro path file hfile
      obtain ⟨t, ht, hmti⟩ := hfil path file hfile
      rw [hmti]
      exact stamp_mono ht
    · simp [hdr]
    · simp [hrec]
    · simp [hdr]
    · simp [hrdy]
    · simp [hpub]
  | step _ h safe ih => exact invariant_step hpos hdiv ih h safe

/-- In every interleaving whose commits are safe, the scan's shortcut accepts an entry only when
its file holds the entry's blob. A policy that compares whole seconds needs commits that are safe
for it. -/
theorem shortcut_accepts_blob (hpos : 0 < granularity) (hdiv : granularity ∣ second) {world : World}
    (run : SafeRun granularity blob minimal world) {policy : StatPolicy}
    (hpolicy : policy.minimal = true → minimal = true)
    {published : Published} (hpublished : world.published = some published) {entry : Entry}
    (hentry : entry ∈ published.index.entries) {file : WorkFile} (hfile : world.files entry.path = some file)
    (haccept : unchanged policy (some (indexWritten granularity published)) entry file = true) :
    blob entry.id = some file.bytes := by
  have hinv := invariant_run hpos hdiv run
  simp only [unchanged, Bool.and_eq_true, decide_eq_true_eq] at haccept
  obtain ⟨⟨⟨⟨⟨⟨⟨⟨-, -⟩, hsize⟩, -⟩, htime⟩, -⟩, -⟩, -⟩, -⟩ := haccept
  rcases hinv.published published hpublished entry hentry with hzero | ⟨m, hm, -, hmul, hsame⟩
  · exact absurd hzero hsize
  rcases hsame file hfile with hblob | hlat
  · exact hblob
  -- a later write would show in the stamp that the policy compares
  have hmti : file.mtime < 2 ^ 32 * second := by
    have h1 := hinv.mtime_le _ file hfile
    have h2 := stamp_le granularity world.now
    have h3 := hinv.now_lt
    omega
  unfold StatPolicy.time at htime
  split at htime
  · rename_i hmin
    have hsec : m / second = file.mtime / second := by
      rw [← timestamp_seconds hmul, ← timestamp_seconds hmti, ← hm]
      exact congrArg UInt32.toNat (of_decide_eq_true htime)
    rw [Before, if_pos (hpolicy hmin)] at hlat
    omega
  · have heq : m = file.mtime := by
      apply timestamp_inj hmul hmti
      rw [← hm]
      exact of_decide_eq_true htime
    have := hlat.lt
    omega

/-! ## Two runs -/

def sampleId : ObjectId := ⟨.sha1, List.replicate 20 7, rfl⟩

def sampleBlobs (id : ObjectId) : Option Bytes := if id = sampleId then some (ascii "old") else none

def samplePath : Bytes := ascii "f"

def sampleFile (bytes : Bytes) (time : Nat) : WorkFile := ⟨bytes, .regular, time, time, 1, 1, 0, 0⟩

/-- The entry whose words are those of the file that holds the blob, stamped at `time`. -/
def recordedEntry (time : Nat) : Entry :=
  ⟨samplePath, .regular, sampleId, .normal, false, false, false, indexStat (sampleFile (ascii "old") time)⟩

def indexOf (entries : List Entry) : Index := ⟨.sha1, .v2, none, entries, []⟩

def sampleStart (time : Nat) : World :=
  ⟨time, fun path => if path = samplePath then some (sampleFile (ascii "old") time) else none, none, none, none, []⟩

lemma sampleStart_initial {time : Nat} (hlt : time < 2 ^ 32 * second)
    (hsta : stamp gran time = time) : Initial gran (sampleStart time) := by
  refine ⟨hlt, rfl, rfl, rfl, rfl, ?_⟩
  intro path file hfile
  change (if path = samplePath then some (sampleFile (ascii "old") time) else none) = some file at hfile
  split at hfile
  · cases hfile
    exact ⟨time, le_rfl, hsta.symm⟩
  · cases hfile

/-- The file is written at 10 s, an empty index at 12 s; at 13 s the words are taken and committed.
The scan trusts them, and the file holds the blob. -/
theorem shortcut_accepts_blob_settled :
    ∃ world published entry file, SafeRun second sampleBlobs false world ∧
      world.published = some published ∧
      entry ∈ published.index.entries ∧ world.files entry.path = some file ∧
      unchanged ⟨false, true⟩ (some (indexWritten second published)) entry file = true ∧
      sampleBlobs entry.id = some file.bytes := by
  have free : ∀ {world next : World}, world.draft = none →
      ∀ draft, world.draft = some draft → next.ready = none ∨ CommitSafe second false world draft := by
    intro world next hnone draft hdr
    rw [hnone] at hdr
    cases hdr
  have r0 : SafeRun second sampleBlobs false (sampleStart (10 * second)) :=
    .start (sampleStart_initial (by decide) (by decide))
  have r1 := r0.step (@Step.lock second sampleBlobs _ (indexOf []) ⟨rfl, rfl⟩ rfl) (free rfl)
  have r2 := r1.step (@Step.commit second sampleBlobs _ ⟨indexOf [], 10 * second, []⟩ rfl rfl) (by
    intro draft hdr
    cases hdr
    exact .inr (by intro i entry hen; cases hen))
  have r3 := r2.step (@Step.tick second sampleBlobs _ (12 * second) (by decide) (by decide)) (free rfl)
  have r4 := r3.step (Step.publish rfl) (free rfl)
  have r5 := r4.step (@Step.tick second sampleBlobs _ (13 * second) (by decide) (by decide)) (free rfl)
  have r6 := r5.step (@Step.lock second sampleBlobs _ (indexOf []) ⟨rfl, rfl⟩ rfl) (free rfl)
  have r7 := r6.step (@Step.record second sampleBlobs _ (recordedEntry (10 * second))
    (sampleFile (ascii "old") (10 * second)) rfl rfl rfl) (fun _ _ => .inl rfl)
  have r8 := r7.step (@Step.edit second sampleBlobs _ _ (indexOf [recordedEntry (10 * second)]) rfl (by
    intro entry hen
    rw [indexOf, mem_singleton] at hen
    subst hen
    exact .inr (.inr ⟨13 * second, mem_singleton_self _⟩))) (fun _ _ => .inl rfl)
  have r9 := r8.step (@Step.commit second sampleBlobs _
    ⟨indexOf [recordedEntry (10 * second)], 13 * second, []⟩ rfl rfl) (by
    intro draft hdr
    cases hdr
    refine .inr ?_
    intro i entry hen _
    cases i with
    | zero =>
      cases hen
      exact .inr (.inr ⟨_, rfl, .inr ⟨13 * second, mem_singleton_self _, by decide, fun h => by cases h⟩⟩)
    | succ i => cases hen)
  have r10 := r9.step (Step.publish rfl) (free rfl)
  have hmem : recordedEntry (10 * second) ∈ ([recordedEntry (10 * second)] : List Entry) :=
    mem_singleton_self _
  have hacc : unchanged ⟨false, true⟩ (some (UInt32.ofNat (stamp second (13 * second) / second)))
      (recordedEntry (10 * second)) (sampleFile (ascii "old") (10 * second)) = true := by
    decide +kernel
  exact ⟨_, _, _, _, r10, rfl, hmem, rfl, hacc,
    @shortcut_accepts_blob second sampleBlobs false (by decide) (dvd_refl _) _ r10 ⟨false,
    true⟩ (fun h => h) _ rfl _
      hmem _ rfl hacc⟩

def tenth : Nat := 10 ^ 8

/-- Stamps of full precision. The file is written at 10.2 s, an empty index at 10.3 s; the words
are taken at 10.4 s, and the file is rewritten at 10.5 s with the same size. The commit compares
10.2 s with the previous index and keeps the words; the index is written at 11 s. A scan that
compares whole seconds then trusts them, although the file no longer holds the blob. -/
theorem shortcut_accepts_changed : ∃ start world published entry file, Initial 1 start ∧
    Relation.ReflTransGen (Step 1 sampleBlobs) start world ∧ world.published = some published ∧
    entry ∈ published.index.entries ∧ world.files entry.path = some file ∧
    unchanged ⟨true, true⟩ (some (indexWritten 1 published)) entry file = true ∧
    sampleBlobs entry.id ≠ some file.bytes := by
  have r0 : Relation.ReflTransGen (Step 1 sampleBlobs) (sampleStart (102 * tenth)) (sampleStart (102 * tenth)) := .refl
  have r1 := r0.tail (@Step.lock 1 sampleBlobs _ (indexOf []) ⟨rfl, rfl⟩ rfl)
  have r2 := r1.tail (@Step.commit 1 sampleBlobs _ ⟨indexOf [], 102 * tenth, []⟩ rfl rfl)
  have r3 := r2.tail (@Step.tick 1 sampleBlobs _ (103 * tenth) (by decide) (by decide))
  have r4 := r3.tail (Step.publish rfl)
  have r5 := r4.tail (@Step.tick 1 sampleBlobs _ (104 * tenth) (by decide) (by decide))
  have r6 := r5.tail (@Step.lock 1 sampleBlobs _ (indexOf []) ⟨rfl, rfl⟩ rfl)
  have r7 := r6.tail (@Step.record 1 sampleBlobs _ (recordedEntry (102 * tenth))
    (sampleFile (ascii "old") (102 * tenth)) rfl rfl rfl)
  have r8 := r7.tail (@Step.edit 1 sampleBlobs _ _ (indexOf [recordedEntry (102 * tenth)]) rfl (by
    intro entry hen
    rw [indexOf, mem_singleton] at hen
    subst hen
    exact .inr (.inr ⟨104 * tenth, mem_singleton_self _⟩)))
  have r9 := r8.tail (@Step.tick 1 sampleBlobs _ (105 * tenth) (by decide) (by decide))
  have r10 := r9.tail (Step.rewrite samplePath (sampleFile (ascii "new") (105 * tenth)) (by decide) (by decide))
  have r11 := r10.tail (@Step.commit 1 sampleBlobs _ ⟨indexOf [recordedEntry (102 * tenth)], 104 * tenth, []⟩ rfl rfl)
  have r12 := r11.tail (@Step.tick 1 sampleBlobs _ (110 * tenth) (by decide) (by decide))
  have r13 := r12.tail (Step.publish rfl)
  have hmem : recordedEntry (102 * tenth) ∈ ([recordedEntry (102 * tenth)] : List Entry) :=
    mem_singleton_self _
  have hacc : unchanged ⟨true, true⟩ (some (UInt32.ofNat (stamp 1 (110 * tenth) / second)))
      (recordedEntry (102 * tenth)) (sampleFile (ascii "new") (105 * tenth)) = true := by
    decide +kernel
  exact ⟨_, _, _, _, _, sampleStart_initial (by decide) (by decide), r13, rfl, hmem, rfl, hacc, by decide⟩

end Girt.Status
