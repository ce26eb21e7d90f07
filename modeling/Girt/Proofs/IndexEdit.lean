import Girt.Index.Edit
import Girt.Proofs.IndexParse

/-!
# What every held index satisfies

Built, read or edited, an index holds validated entries, extensions a reader accepts, and either
the bytes it was read from or none.
-/

namespace Girt.IndexFile

open ByteLib List
open Entry (unstamped)

variable {index : Index} {signature : Signature} {fmt : ObjectFormat} {extensions : List Extension}
variable {allowed : List Signature} {keep : Signature → Bool}

structure Sound (digs : Digests) (index : Index) : Prop where
  valid : ∃ lim, validateEntries index.format index.entries lim = .ok ()
  accepted : ∀ extension ∈ index.extensions, Accepted extension.signature
  sdir_le : (index.extensions.filter (fun extension => extension.signature = .sdir)).length ≤ 1
  sdir_data : ∀ extension ∈ index.extensions, extension.signature = .sdir → extension.data = []
  link : LinkRead index.format index.extensions
  sparse : index.entries.any (fun entry => entry.mode = .sparseDirectory) = true →
    index.has .sdir = true ∨ index.sharedIndexId ≠ none
  original : ∀ bytes, index.original = some bytes →
    ∃ shared lim, Index.parseWithShared digs index.format bytes shared lim = .ok index

variable {digs : Digests}

lemma has_eq_true : index.has signature ↔ ∃ ext ∈ index.extensions, ext.signature = signature := by
  simp [Index.has]

lemma has_eq_false :
    index.has signature = false ↔ index.extensions.filter (·.signature = signature) = [] := by
  simp [Index.has, filter_eq_nil_iff]

lemma sharedIndexId_of_has (h : index.has .link = false) : index.sharedIndexId = none :=
  sharedIndexId_of_no_link (has_eq_false.mp h)

lemma linkRead_of_has (h : extensions.filter (·.signature = .link) = []) :
    LinkRead fmt extensions := by
  refine ⟨by rw [h]; simp, ?_⟩
  intro link hlink hsig
  have hmem := mem_filter_signature.mpr ⟨hlink, hsig⟩
  rw [h] at hmem
  cases hmem

/-! ## Reading -/

theorem sound_of_parse {bs : Bytes} {shared : Option Bytes} {lim : Limits}
    (h : Index.parseWithShared digs fmt bs shared lim = .ok index) :
    Sound digs index := by
  have hpar := h
  obtain ⟨file, hfile, h⟩ := bind_ok.mp h
  obtain ⟨hread, hvd, -⟩ := parseFile_eq_ok hfile
  obtain ⟨hlink, hres⟩ := resolveWith_eq_ok h
  have hform := hread.format_eq
  rcases hres with ⟨hnone, rfl, hlin⟩ | ⟨id, base, hshare, -, hens, hsame⟩
  · have hens : validateEntries index.format index.entries lim = .ok () := by
      cases hhas : index.has .link with
      | true => exact hlin hhas
      | false => rw [hform]; exact hvd hhas
    refine ⟨⟨lim, hens⟩, hread.framed.accepted, hread.framed.sdir_le, hread.framed.sdir_data, hlink, ?_, ?_⟩
    · intro hspa
      exact .inl (hread.framed.sparse hspa)
    intro orig horg
    rw [hread.original_eq] at horg
    cases horg
    exact ⟨shared, lim, hform ▸ hpar⟩
  · have hexs : index.extensions = file.extensions := by rw [hsame]
    have hind : index.format = file.format := by rw [hsame]
    have hid : index.sharedIndexId = file.sharedIndexId := by
      simp only [Index.sharedIndexId, hexs, hind]
    refine ⟨⟨lim, hind ▸ hens⟩, ?_, ?_, ?_, ?_, ?_, ?_⟩
    · rw [hexs]
      exact hread.framed.accepted
    · rw [hexs]
      exact hread.framed.sdir_le
    · rw [hexs]
      exact hread.framed.sdir_data
    · rw [hexs, hind]
      exact hlink
    · intro _
      exact .inr (by rw [hid, hshare]; simp)
    · intro orig horg
      have hfil : index.original = file.original := by rw [hsame]
      rw [hfil, hread.original_eq] at horg
      cases horg
      exact ⟨shared, lim, by rw [hind, hform]; exact hpar⟩

/-! ## Editing -/

lemma fitting_eq_ok {next : Index} {lim : Limits} (h : index.fitting lim = .ok next) :
    next = index := by
  obtain ⟨_, -, h⟩ := bind_ok.mp h
  cases h
  rfl

lemma refuse_eq_ok {u : Unit} (h : index.refuse allowed = .ok u)
    {ext : Extension} (hmem : ext ∈ index.extensions) : ext.signature ∈ allowed := by
  unfold Index.refuse at h
  split at h
  · cases h
  · rename_i hfind
    simpa using find?_eq_none.mp hfind ext hmem

lemma has_eq_false_of_refuse {u : Unit} (h : index.refuse allowed = .ok u)
    (hnot : signature ∉ allowed) : index.has signature = false := by
  rw [Bool.eq_false_iff]
  intro hhas
  obtain ⟨ext, hmem, rfl⟩ := has_eq_true.mp hhas
  exact hnot (refuse_eq_ok h hmem)

lemma filter_filter_length_le {α : Type} (p q : α → Bool) (l : List α) :
    ((l.filter p).filter q).length ≤ (l.filter q).length := by
  rw [filter_comm]
  exact length_filter_le _ _

lemma LinkRead.filter (h : LinkRead fmt extensions)
    (keep : Extension → Bool) : LinkRead fmt (extensions.filter keep) := by
  refine ⟨le_trans (filter_filter_length_le _ _ _) h.link_le, ?_⟩
  intro link hlink hsig
  exact h.link_data link (mem_of_mem_filter hlink) hsig

lemma sharedIndexId_retain (hkeep : keep .link) :
    (index.retain keep).sharedIndexId = index.sharedIndexId := by
  have hfind : (index.retain keep).extensions.find? (·.signature = .link) =
      index.extensions.find? (·.signature = .link) := by
    rw [← head?_filter, ← head?_filter, Index.retain, filter_filter]
    congr 2
    funext ext
    by_cases hlink : ext.signature = .link <;> simp [hlink, hkeep]
  simp only [Index.sharedIndexId, hfind]
  rfl

lemma Sound.retain (h : Sound digs index) (hsdir : keep .sdir ∨ index.has .sdir = false)
    (hlink : keep .link ∨ index.has .link = false) : Sound digs (index.retain keep) := by
  refine ⟨h.valid, ?_, ?_, ?_, h.link.filter _, ?_, by intro bs hbs; cases hbs⟩
  · intro ext hmem
    exact h.accepted ext (mem_of_mem_filter hmem)
  · exact le_trans (filter_filter_length_le _ _ _) h.sdir_le
  · intro ext hmem
    exact h.sdir_data ext (mem_of_mem_filter hmem)
  · intro hspa
    rcases h.sparse hspa with hhas | hshare
    · obtain ⟨ext, hmem, hsig⟩ := has_eq_true.mp hhas
      refine .inl (has_eq_true.mpr ⟨ext, mem_filter.mpr ⟨hmem, ?_⟩, hsig⟩)
      rw [hsig]
      exact hsdir.resolve_right (by simp [hhas])
    · rcases hlink with hkeep | hnone
      · exact .inr (by rw [sharedIndexId_retain hkeep]; exact hshare)
      · exact absurd (sharedIndexId_of_has hnone) hshare

lemma filter_push {other : Signature} (hne : signature ≠ other) (data : Bytes) :
    (index.push signature data).extensions.filter (·.signature = other) =
      index.extensions.filter (·.signature = other) := by
  simp [Index.push, filter_append, hne]

lemma sharedIndexId_push (hlink : signature ≠ .link) (data : Bytes) :
    (index.push signature data).sharedIndexId = index.sharedIndexId := by
  simp only [Index.sharedIndexId, ← head?_filter, filter_push hlink]
  rfl

lemma Sound.push (h : Sound digs index) (hopt : signature.optional)
    (horg : index.original = none) (data : Bytes) : Sound digs (index.push signature data) := by
  have hsdir : signature ≠ .sdir := by
    rintro rfl
    cases hopt
  have hlink : signature ≠ .link := by
    rintro rfl
    cases hopt
  have hmem : ∀ ext ∈ (index.push signature data).extensions, ext.signature ≠ signature →
      ext ∈ index.extensions := by
    intro ext hext hne
    rcases mem_append.mp hext with hext | hext
    · exact hext
    · rw [mem_singleton] at hext
      subst hext
      exact absurd rfl hne
  refine ⟨h.valid, ?_, ?_, ?_, ⟨?_, ?_⟩, ?_, ?_⟩
  · intro ext hext
    rcases mem_append.mp hext with hext | hext
    · exact h.accepted ext hext
    · rw [mem_singleton] at hext
      subst hext
      exact .inl hopt
  · rw [filter_push hsdir]
    exact h.sdir_le
  · intro ext hext hsig
    exact h.sdir_data ext (hmem ext hext (by rw [hsig]; exact hsdir.symm)) hsig
  · rw [filter_push hlink]
    exact h.link.link_le
  · intro link hext hsig
    exact h.link.link_data link (hmem link hext (by rw [hsig]; exact hlink.symm)) hsig
  · intro hspa
    rw [sharedIndexId_push hlink]
    rcases h.sparse hspa with hhas | hid
    · obtain ⟨ext, hext, hsig⟩ := has_eq_true.mp hhas
      exact .inl (has_eq_true.mpr ⟨ext, mem_append_left _ hext, hsig⟩)
    · exact .inr hid
  · intro bs hbs
    rw [show (index.push signature data).original = index.original from rfl, horg] at hbs
    cases hbs

/-- The sparse marker is regenerated from the entries. -/
lemma sound_markSparse {index : Index}
    (hvd : ∃ lim, validateEntries index.format index.entries lim = .ok ())
    (hacc : ∀ ext ∈ index.extensions, ext.signature.optional) (horg : index.original = none) :
    Sound digs index.markSparse := by
  have hnone : ∀ signature : Signature, signature.optional = false →
      index.extensions.filter (·.signature = signature) = [] := by
    intro signature hsig
    rw [filter_eq_nil_iff]
    intro ext hmem heq
    have := hacc ext hmem
    rw [of_decide_eq_true heq, hsig] at this
    cases this
  unfold Index.markSparse
  split
  · have hkeeps : ∀ signature : Signature, signature.optional = false →
        (index.push .sdir []).extensions.filter (·.signature = signature) =
          if signature = .sdir then [⟨.sdir, []⟩] else [] := by
      intro signature hsig
      rw [Index.push, filter_append, hnone signature hsig]
      by_cases hsdir : signature = .sdir
      · subst hsdir
        rfl
      · simp [hsdir, Ne.symm hsdir]
    refine ⟨hvd, ?_, ?_, ?_, linkRead_of_has (hkeeps .link rfl), ?_, ?_⟩
    · intro ext hmem
      rcases mem_append.mp hmem with hmem | hmem
      · exact .inl (hacc ext hmem)
      · rw [mem_singleton] at hmem
        subst hmem
        exact .inr (.inr rfl)
    · rw [hkeeps .sdir rfl]
      decide
    · intro ext hmem hsig
      have hsdir := mem_filter_signature.mpr ⟨hmem, hsig⟩
      rw [hkeeps .sdir rfl, if_pos rfl, mem_singleton] at hsdir
      rw [hsdir]
    · intro _
      exact .inl (has_eq_true.mpr ⟨⟨.sdir, []⟩, mem_append_right _ (mem_singleton_self _), rfl⟩)
    · intro bs hbs
      rw [show (index.push .sdir []).original = index.original from rfl, horg] at hbs
      cases hbs
  · rename_i hspa
    refine ⟨hvd, fun ext hmem => .inl (hacc ext hmem), ?_, ?_, linkRead_of_has (hnone .link rfl),
      fun h => absurd h hspa, ?_⟩
    · rw [hnone .sdir rfl]
      simp
    · intro ext hmem hsig
      have hsdir := mem_filter_signature.mpr ⟨hmem, hsig⟩
      rw [hnone .sdir rfl] at hsdir
      cases hsdir
    · intro bs hbs
      rw [horg] at hbs
      cases hbs

lemma sound_invalidateExtensions {next : Index} {retainTree : Bool}
    (hvd : ∃ lim, validateEntries index.format index.entries lim = .ok ())
    (h : index.invalidateExtensions retainTree = .ok next) : Sound digs next := by
  obtain ⟨_, -, h⟩ := bind_ok.mp h
  cases h
  refine sound_markSparse hvd ?_ rfl
  intro ext hmem
  have hkept := (mem_filter.mp hmem).2
  simp only [Bool.or_eq_true, Bool.and_eq_true, decide_eq_true_eq] at hkept
  rcases hkept with hreuc | ⟨-, htree⟩
  · rw [hreuc]
    rfl
  · rw [htree]
    rfl

lemma Sound.restat (h : Sound digs index) {ents : List Entry}
    (hens : ents.map unstamped = index.entries.map unstamped) :
    Sound digs { index with original := none, entries := ents } := by
  have hany : ∀ l : List Entry, (l.map unstamped).any (·.mode = .sparseDirectory) =
      l.any (·.mode = .sparseDirectory) := by
    intro l
    rw [any_map]
    rfl
  obtain ⟨lim, hvd⟩ := h.valid
  refine ⟨⟨lim, ?_⟩, h.accepted, h.sdir_le, h.sdir_data, h.link, ?_, by intro bs hbs; cases hbs⟩
  · rw [← validateEntries_unstamped, hens, validateEntries_unstamped]
    exact hvd
  · intro hspa
    rw [← hany, hens, hany] at hspa
    exact h.sparse hspa

lemma smudge_unstamped (thr : Timestamp) (ent : Entry) :
    (Index.smudge thr ent).unstamped = ent.unstamped := by
  unfold Index.smudge
  split <;> rfl

lemma smudgeRacyEntries_entries (index : Index) (thr : Timestamp) (ver : List Nat) :
    (index.smudgeRacyEntries thr ver).entries = Index.smudgeFrom thr 0 ver index.entries := by
  simp only [Index.smudgeRacyEntries]
  split
  · rename_i hsame
    exact hsame.symm
  · rfl

lemma smudgeFrom_unstamped (thr : Timestamp) (ents : List Entry) (pos : Nat) (ver : List Nat) :
    (Index.smudgeFrom thr pos ver ents).map unstamped = ents.map unstamped := by
  induction ents generalizing pos ver with
  | nil => rfl
  | cons ent ents ih =>
    rw [Index.smudgeFrom]
    split
    · rw [map_cons, map_cons, ih]
    · rw [map_cons, map_cons, ih, smudge_unstamped]

lemma recordOne_unstamped (started : UInt32) (ents : List Entry) (ver : Nat × Stat) :
    (Index.recordOne started ents ver).map unstamped = ents.map unstamped := by
  unfold Index.recordOne
  generalize ver.1 = pos
  induction ents generalizing pos with
  | nil => cases pos <;> rfl
  | cons ent ents ih =>
    cases pos with
    | zero => rfl
    | succ pos =>
      rw [modify_succ_cons, map_cons, map_cons, ih]

lemma recordStat_unstamped (started : UInt32) (ver : List (Nat × Stat)) (ents : List Entry) :
    (ver.foldl (Index.recordOne started) ents).map unstamped = ents.map unstamped := by
  induction ver generalizing ents with
  | nil => rfl
  | cons one ver ih => rw [foldl_cons, ih, recordOne_unstamped]

/-- What most edits do: nothing, or new stat data, or some extensions less and an optional one more. -/
inductive Kept (index : Index) : Index → Prop
  | same : Kept index index
  | restat {ents : List Entry} (h : ents.map unstamped = index.entries.map unstamped) :
      Kept index { index with original := none, entries := ents }
  | retain {keep : Signature → Bool} (hsdir : keep .sdir ∨ index.has .sdir = false)
      (hlink : keep .link ∨ index.has .link = false) : Kept index (index.retain keep)
  | push {next : Index} {signature : Signature} (data : Bytes) (h : Kept index next) (hopt : signature.optional)
      (horg : next.original = none) : Kept index (next.push signature data)

/-- The edits that may write the extensions anew. -/
def Edit.rewrites : Edit → Bool
  | .setVersion _ _ | .replaceEntries _ _ | .replaceEntriesReusingStat _ _ | .makeStandalone _
  | .discardOptionalExtensions _ _ => true
  | _ => false

section Operations

variable {index next : Index} {lim : Limits}

lemma Kept.sound (hkept : Kept index next) (h : Sound digs index) : Sound digs next := by
  induction hkept with
  | same => exact h
  | restat hens => exact h.restat hens
  | retain hsdir hlink => exact h.retain hsdir hlink
  | push data _ hopt horg ih => exact ih.push hopt horg data

lemma kept_retain {u : Unit} (href : index.refuse allowed = .ok u)
    (hlink : Signature.link ∉ allowed) (hsdir : keep .sdir ∨ Signature.sdir ∉ allowed) :
    Kept index (index.retain keep) :=
  .retain (hsdir.imp_right (has_eq_false_of_refuse href)) (.inr (has_eq_false_of_refuse href hlink))

lemma kept_of_apply (edit : Edit) (hedit : edit.rewrites = false)
    (h : edit.apply index = .ok next) : Kept index next := by
  cases edit with
  | invalidateEntryOffsets lim =>
    obtain ⟨⟨⟩, href, h⟩ := bind_ok.mp h
    simp only at h
    split at h <;> cases fitting_eq_ok h
    · exact kept_retain href (by decide) (.inl rfl)
    · exact .same
  | discardResolveUndo lim =>
    obtain ⟨⟨⟩, href, h⟩ := bind_ok.mp h
    split at h <;> cases fitting_eq_ok h
    · exact kept_retain href (by decide) (.inr (by decide))
    · exact .same
  | invalidateTreeCache lim =>
    obtain ⟨⟨⟩, href, h⟩ := bind_ok.mp h
    split at h
    · cases h
      exact .same
    · rw [fitting_eq_ok h]
      exact kept_retain href (by decide) (.inr (by decide))
  | replaceStatusCache cache data lim =>
    obtain ⟨⟨⟩, href, h⟩ := bind_ok.mp h
    have hkept : Kept index (index.retain (fun signature => signature ≠ cache.signature && !Index.isOffset signature)) :=
      kept_retain href (by decide) (.inl (by cases cache <;> rfl))
    cases data <;> cases fitting_eq_ok h
    · exact hkept
    · exact hkept.push _ (by cases cache <;> rfl) rfl
  | setUntrackedCacheEnabled enabled lim =>
    obtain ⟨⟨⟩, href, h⟩ := bind_ok.mp h
    have hkept : Kept index (index.retain (fun signature => signature ≠ .untr && !Index.isOffset signature)) :=
      kept_retain href (by decide) (.inl rfl)
    split_ifs at h <;> cases fitting_eq_ok h
    · exact .same
    · exact hkept.push _ rfl rfl
    · exact hkept
  | smudgeRacyEntries thr verified =>
    cases h
    simp only [Index.smudgeRacyEntries]
    split
    · exact .same
    · exact .restat (smudgeFrom_unstamped thr index.entries 0 verified)
  | recordStat verified started =>
    cases h
    unfold Index.recordStat
    split
    · exact .same
    · exact .restat (recordStat_unstamped started verified index.entries)
  | discardCheckoutCaches =>
    cases h
    exact .retain (.inl rfl) (.inl rfl)
  | _ => cases hedit

lemma sound_fitting (h : Sound digs index) (hnext : index.fitting lim = .ok next) :
    Sound digs next := by
  rw [fitting_eq_ok hnext]
  exact h

lemma sound_new {ents : List Entry} (h : Index.new fmt ents lim = .ok next) : Sound digs next := by
  obtain ⟨⟨⟩, -, h⟩ := bind_ok.mp h
  obtain ⟨⟨⟩, hvd, h⟩ := bind_ok.mp h
  rw [fitting_eq_ok h]
  exact sound_markSparse ⟨lim, hvd⟩ (by simp) rfl

lemma sound_setVersion (h : Sound digs index) {version : Version}
    (hnext : index.setVersion version lim = .ok next) : Sound digs next := by
  obtain ⟨⟨⟩, -, hnext⟩ := bind_ok.mp hnext
  split at hnext
  · exact sound_fitting h hnext
  obtain ⟨replacement, hrep, hnext⟩ := bind_ok.mp hnext
  rw [fitting_eq_ok hnext]
  have hsound : Sound digs replacement := sound_invalidateExtensions h.valid hrep
  have horg : replacement.original = none := by
    obtain ⟨_, -, hrep⟩ := bind_ok.mp hrep
    cases hrep
    unfold Index.markSparse
    split <;> rfl
  -- only the version differs, and no bytes are retained that would show it
  exact ⟨hsound.valid, hsound.accepted, hsound.sdir_le, hsound.sdir_data, hsound.link, hsound.sparse, by
    intro bytes hbs
    rw [show ({ replacement with version := version } : Index).original = replacement.original from rfl,
      horg] at hbs
    cases hbs⟩

lemma sound_replaceEntries (h : Sound digs index) {ents : List Entry}
    (hnext : index.replaceEntries ents lim = .ok next) : Sound digs next := by
  obtain ⟨⟨⟩, -, hnext⟩ := bind_ok.mp hnext
  obtain ⟨⟨⟩, hvd, hnext⟩ := bind_ok.mp hnext
  split at hnext
  · exact sound_fitting h hnext
  · obtain ⟨repl, hrep, hnext⟩ := bind_ok.mp hnext
    rw [fitting_eq_ok hnext]
    exact sound_invalidateExtensions ⟨lim, hvd⟩ hrep

lemma sound_makeStandalone (h : Sound digs index) (hnext : index.makeStandalone lim = .ok next) :
    Sound digs next := by
  obtain ⟨⟨⟩, -, hnext⟩ := bind_ok.mp hnext
  split at hnext
  · obtain ⟨repl, hrep, hnext⟩ := bind_ok.mp hnext
    rw [fitting_eq_ok hnext]
    exact sound_invalidateExtensions h.valid hrep
  · exact sound_fitting h hnext

lemma sound_discardOptionalExtensions (h : Sound digs index) {sigs : List Signature}
    (hnext : index.discardOptionalExtensions sigs lim = .ok next) : Sound digs next := by
  unfold Index.discardOptionalExtensions at hnext
  split at hnext
  · cases hnext
  rename_i hfind
  have hopt : ∀ signature : Signature, signature.optional = false → sigs.contains signature = false := by
    intro signature hsig
    rw [Bool.eq_false_iff]
    intro hmem
    have := find?_eq_none.mp hfind signature (by simpa using hmem)
    simp [hsig] at this
  have hkept : Sound digs (index.retain (fun signature => !sigs.contains signature && !Index.isOffset signature)) :=
    h.retain (.inl (by simp only [hopt .sdir rfl]; rfl)) (.inl (by simp only [hopt .link rfl]; rfl))
  split at hnext
  · simp only at hnext
    split at hnext
    · -- the extensions that are left decide the rest, and `make_standalone` forgets the original bytes
      rename_i hlink
      obtain ⟨⟨⟩, -, hnext⟩ := bind_ok.mp hnext
      rw [if_pos hlink] at hnext
      obtain ⟨repl, hrep, hnext⟩ := bind_ok.mp hnext
      rw [fitting_eq_ok hnext]
      exact sound_invalidateExtensions (by exact h.valid) hrep
    · rw [fitting_eq_ok hnext]
      exact hkept
  · cases hnext
    exact h

lemma sound_edit (h : Sound digs index) (edit : Edit) (hnext : edit.apply index = .ok next) :
    Sound digs next := by
  cases edit with
  | setVersion ver lim => exact sound_setVersion h hnext
  | replaceEntries ents lim | replaceEntriesReusingStat ents lim => exact sound_replaceEntries h hnext
  | makeStandalone lim => exact sound_makeStandalone h hnext
  | discardOptionalExtensions sigs lim => exact sound_discardOptionalExtensions h hnext
  | _ => exact (kept_of_apply _ rfl hnext).sound h

end Operations

theorem reachable_sound (h : Reachable digs index) : Sound digs index := by
  have hemp : ∀ {fmt : ObjectFormat}, validateEntries fmt [] ⟨0, 0, 0, 0, by decide⟩ = .ok () := by
    intro fmt
    rfl
  induction h with
  | empty fmt => exact @sound_markSparse digs (.empty fmt) ⟨_, hemp⟩ (by simp [Index.empty]) rfl
  | orphan fmt ver =>
    refine @sound_markSparse digs (.emptyForOrphan digs fmt ver) ⟨_, hemp⟩ ?_ rfl
    intro ext hmem
    rw [Index.emptyForOrphan, mem_singleton] at hmem
    subst hmem
    rfl
  | built h => exact sound_new h
  | parsed h => exact sound_of_parse h
  | edited _ h ih => exact sound_edit ih _ h
  | replaced _ _ h _ ih =>
    obtain ⟨⟨⟩, -, h⟩ := bind_ok.mp h
    obtain ⟨⟨⟩, -, h⟩ := bind_ok.mp h
    exact sound_fitting ih h

end Girt.IndexFile
