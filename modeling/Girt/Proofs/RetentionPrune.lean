import Girt.Proofs.FilesPrepare
import Girt.Proofs.RetentionWalk
import Girt.Retention.Prune

/-!
# Pruning removes nothing that is needed

What the plan keeps is closed, and only files outside of it are removed.
-/

namespace Girt.Retention

open ByteLib GraphLib Refs.Files Proofs List
open ObjectId (fromHex)

variable {format : ObjectFormat} {founds : List Found}
variable {state state' : Nat × Observation} {fold : Bool} {inv inv' : Inventory} {plan : RetentionPlan}

variable {repo : Repository} {pol : RetentionPolicy} {cont : ObjectId → Option Object}

section Retained

/-- A file whose pack stays: a marker beside it, or a recent pack. -/
def Stays (pol : RetentionPolicy) (file : PackFile) : Prop :=
  file.extension = some (ascii "keep") ∨
    file.extension = some (ascii "pack") ∧ ∀ cutoff ∈ pol.recentCutoff, cutoff ≤ file.modified

def StaysPack (pol : RetentionPolicy) (store : Store) (stem : Bytes) : Prop :=
  ∃ file ∈ store.packFiles, file.stem = stem ∧ Stays pol file

lemma recentPackFiles_eq_ok {files : List PackFile} {state state' : Nat × List Bytes}
    (h : files.foldlM (recentPackFile pol) state = .ok state') :
    state.2 ⊆ state'.2 ∧ ∀ file ∈ files, Stays pol file → file.stem ∈ state'.2 := by
  induction files generalizing state with
  | nil =>
    cases h
    exact ⟨Subset.refl _, by simp⟩
  | cons file files ih =>
    obtain ⟨middle, hfirst, hrest⟩ := bind_ok.mp h
    obtain ⟨hkeep, hfil⟩ := ih hrest
    obtain ⟨-, hfirst⟩ := reject_bind.mp hfirst
    obtain ⟨-, hlast⟩ := reject_bind.mp hfirst
    have hstep : state.2 ⊆ middle.2 ∧ (Stays pol file → file.stem ∈ middle.2) := by
      split_ifs at hlast with hmar hrec
      · cases hlast
        exact ⟨subset_cons_self _ _, fun _ => .head _⟩
      · cases hlast
        exact ⟨subset_cons_self _ _, fun _ => .head _⟩
      · cases hlast
        exact ⟨Subset.refl _, fun hsta => (hsta.elim hmar hrec).elim⟩
    exact ⟨Subset.trans hstep.1 hkeep, forall_mem_cons.mpr ⟨fun hsta => hkeep (hstep.2 hsta), hfil⟩⟩

lemma retained_foldRecentPacks (fold : Bool) (observation : Observation) (files : List PackFile)
    {stem : Bytes} (h : stem ∈ retainedPacks observation) :
    stem ∈ retainedPacks (foldRecentPacks fold observation files) := by
  have hstep : ∀ (observation : Observation) (other : Bytes), stem ∈ retainedPacks observation →
      stem ∈ retainedPacks (foldPack files observation other) := by
    intro observation other hstem
    unfold foldPack
    simp only [retainedPacks, mem_append] at hstem ⊢
    split_ifs
    · exact hstem.imp_left (mem_cons_of_mem _)
    · by_cases hsame : stem = other
      · exact .inr (hsame ▸ (.head _))
      · rcases hstem with hstem | hstem
        · exact .inl (mem_filter.mpr ⟨hstem, by simpa using hsame⟩)
        · exact .inr (.tail _ hstem)
    · exact hstem
  unfold foldRecentPacks
  split
  · generalize indexedStems files = stems
    induction stems generalizing observation with
    | nil => exact h
    | cons other stems ih => exact ih _ (hstep observation other h)
  · exact h

lemma recentFiles_eq_ok {fanout : Bytes} {files : List LooseFile}
    (h : files.foldlM (recentFile pol format fanout) state = .ok state') :
    retainedPacks state'.2 = retainedPacks state.2 := by
  refine foldlM_induct (P := fun later => retainedPacks later.2 = retainedPacks state.2) ?_ rfl h
  intro pre file after _ hbf hstep
  obtain ⟨⟨⟩, -, hstep⟩ := bind_ok.mp hstep
  obtain ⟨⟨⟩, -, hstep⟩ := bind_ok.mp hstep
  split_ifs at hstep
  · obtain ⟨⟨⟩, -, hstep⟩ := bind_ok.mp hstep
    split at hstep
    · cases hstep
    · cases hstep
      exact hbf
  · cases hstep
    exact hbf

lemma recentEntry_eq_ok {ent : DirEntry} (h : recentEntry pol format fold state ent = .ok state') :
    retainedPacks state.2 ⊆ retainedPacks state'.2 ∧
      ∀ file ∈ ent.packFiles, Stays pol file → file.stem ∈ retainedPacks state'.2 := by
  obtain ⟨⟨⟩, -, h⟩ := bind_ok.mp h
  cases ent with
  | pack isDir files =>
    obtain ⟨⟨⟩, -, h⟩ := bind_ok.mp h
    obtain ⟨⟨ents, stems⟩, hfil, hlast⟩ := bind_ok.mp h
    cases hlast
    obtain ⟨hkeep, hsta⟩ := recentPackFiles_eq_ok hfil
    refine ⟨fun stem hstem => retained_foldRecentPacks _ _ _ ?_,
      fun file hfile hstay => retained_foldRecentPacks _ _ _ ?_⟩
    · exact mem_append.mpr ((mem_append.mp hstem).imp_left fun hold => hkeep hold)
    · exact mem_append_left _ (hsta file hfile hstay)
  | other name isDir files =>
    have hnone : ∀ file ∈ (DirEntry.other name isDir files).packFiles, False := fun file hfile => by
      cases hfile
    simp only [reject_bind] at h
    obtain ⟨-, -, h⟩ := h
    split_ifs at h
    · cases h
      exact ⟨Subset.refl _, fun file hfile => (hnone file hfile).elim⟩
    obtain ⟨⟨⟩, -, h⟩ := bind_ok.mp h
    refine ⟨fun stem hstem => ?_, fun file hfile => (hnone file hfile).elim⟩
    rw [recentFiles_eq_ok h]
    exact hstem

lemma retained_of_stays {observation : Observation}
    (h : observeRoots pol repo fold founds = .ok observation) {stem : Bytes}
    (hsta : StaysPack pol repo.objects.primary stem) : stem ∈ retainedPacks observation := by
  obtain ⟨file, hfile, rfl, hstay⟩ := hsta
  simp only [observeRoots, recentObjects, bind_ok] at h
  obtain ⟨-, -, -, -, -, -, fnd, hfold, hlast⟩ := h
  cases hlast
  obtain ⟨ent, hen, hpack⟩ := mem_flatMap.mp hfile
  obtain ⟨pre, after, hens⟩ := append_of_mem hen
  rw [hens, foldlM_append] at hfold
  obtain ⟨first, -, hfold⟩ := bind_ok.mp hfold
  obtain ⟨second, hsec, hrest⟩ := bind_ok.mp hfold
  refine foldlM_induct (P := fun later => file.stem ∈ retainedPacks later.2) ?_
    ((recentEntry_eq_ok hsec).2 file hpack hstay) hrest
  intro state other state' _ hstem hstep
  exact (recentEntry_eq_ok hstep).1 hstem

end Retained

section Plan

variable {observation : Observation} {objectInfo : OrdMap ObjectId ObjectInfo} {required : IdSet}

def Kept (plan : RetentionPlan) : Set ObjectId :=
  {id | plan.reachable.contains id = true ∨ plan.protectedObjects.contains id = true}

def StayingObjects (pol : RetentionPolicy) (repo : Repository) : Set ObjectId :=
  {id | ∃ pack ∈ repo.objects.primary.packs, StaysPack pol repo.objects.primary pack.stem ∧ id ∈ pack.identities}

lemma requireLogs_eq_ok {live : IdSet} {requiredRoots : IdSet}
    (h : observation.logs.foldlM (requireLog pol live) observation.strongRoots = .ok requiredRoots)
    (id : ObjectId) :
    (observation.strongRoots.contains id → requiredRoots.contains id) ∧
      (requiredRoots.contains id → observation.roots.contains id) := by
  refine foldlM_induct (P := fun roots : IdSet => (observation.strongRoots.contains id →
    roots.contains id) ∧
    (roots.contains id → observation.roots.contains id)) ?_ ⟨fun hid => hid, observation.strong_roots id⟩ h
  rintro roots log roots' hlog ⟨hkeep, hroots⟩ hstep
  obtain ⟨expired, -, hstep⟩ := bind_ok.mp hstep
  split_ifs at hstep
  · cases hstep
    exact ⟨hkeep, hroots⟩
  cases hstep
  refine ⟨fun hid => contains_addIds.mpr (.inl (hkeep hid)), fun hid => ?_⟩
  rcases contains_addIds.mp hid with hid | hid
  · exact hroots hid
  · obtain ⟨hmem, hnull⟩ := mem_filter.mp hid
    exact observation.logs_roots log hlog id hmem (by simpa using hnull)

/-- What holds of the inventory of retained packs: each of its objects names nothing, or is required,
or is a root of the walk that follows. -/
structure InventorySound (cont : ObjectId → Option Object) (required : IdSet) (inv : Inventory) : Prop where
  info : InfoSound cont inv.objectInfo
  objects : ∀ id, inv.objects.contains id = true → (∃ object, cont id = some object ∧ object.kind = .blob) ∨
    required.contains id = true ∨ inv.roots.contains id = true

variable (hids : repo.objects.Identified cont)
include hids

lemma walkUnless_eq_ok {known roots : IdSet} {reached last walked : Walked}
    (hrea : ∀ id, reached.reachable.contains id ↔
      Reach (Edge repo cont) {id | known.contains id} id)
    (hinfo : InfoSound cont last.objectInfo) (hena : last.boundaries.enabled = false)
    (h : walkUnless repo pol known reached roots last = .ok walked) :
    (∀ id, walked.reachable.contains id ↔ Reach (Edge repo cont) {id | roots.contains id} id) ∧
      InfoSound cont walked.objectInfo ∧ walked.boundaries.enabled = false := by
  unfold walkUnless at h
  split_ifs at h with hsame
  · cases h
    have hroots : roots = known := OrdMap.ext hsame
    exact ⟨hroots ▸ hrea, hinfo, hena⟩
  · exact walk_eq_ok hids hinfo hena h

lemma locateKnown_eq_ok (hinfo : InfoSound cont objectInfo) {id : ObjectId} {kind : ObjectKind}
    {size : Nat} (h : locateKnown repo objectInfo id = .ok (some (kind, size))) :
    ∃ obj, cont id = some obj ∧ obj.kind = kind := by
  unfold locateKnown at h
  split at h
  · rename_i info hget
    cases h
    exact hinfo id info hget
  · rw [wrapError_eq_ok] at h
    exact hids.locate h

lemma inventoryObject_eq_ok {id : ObjectId} (h : InventorySound cont required inv)
    (hstep : inventoryObject repo pol required inv id = .ok inv') :
    InventorySound cont required inv' ∧
      ∀ other, inv'.objects.contains other ↔ inv.objects.contains other ∨ other = id := by
  have hadd : ∀ other, (addIds inv.objects [id]).contains other ↔
      inv.objects.contains other ∨ other = id := fun other => by rw [contains_addIds, mem_singleton]
  obtain ⟨located, hloc, hstep⟩ := bind_ok.mp hstep
  split at hstep
  · cases hstep
  rename_i kind size
  obtain ⟨obj, hobj, hkind⟩ := locateKnown_eq_ok hids h.info hloc
  obtain ⟨⟨⟩, -, hstep⟩ := bind_ok.mp hstep
  by_cases hblob : kind = .blob
  · rw [if_pos hblob] at hstep
    cases hstep
    refine ⟨⟨?_, fun other hoth => ?_⟩, hadd⟩
    · split
      · exact h.info
      · rw [← hkind]
        exact h.info.insert hobj size
    · rcases (hadd other).mp hoth with hoth | rfl
      · exact h.objects other hoth
      · exact .inl ⟨obj, hobj, hkind.trans hblob⟩
  · rw [if_neg hblob] at hstep
    split at hstep
    · rename_i hreq
      cases hstep
      refine ⟨⟨h.info, fun other hoth => ?_⟩, hadd⟩
      rcases (hadd other).mp hoth with hoth | rfl
      · exact h.objects other hoth
      · exact .inr (.inl hreq)
    · cases hstep
      refine ⟨⟨h.info, fun other hoth => ?_⟩, hadd⟩
      rcases (hadd other).mp hoth with hoth | rfl
      · exact (h.objects other hoth).imp_right fun hkeep =>
          hkeep.imp_right fun hroot => contains_addIds.mpr (.inl hroot)
      · exact .inr (.inr (contains_addIds.mpr (.inr (.head _))))

lemma inventoryObjects_eq_ok {ids : List ObjectId} (h : InventorySound cont required inv)
    (hfold : ids.foldlM (inventoryObject repo pol required) inv = .ok inv') :
    InventorySound cont required inv' ∧
      ∀ id, inv.objects.contains id ∨ id ∈ ids → inv'.objects.contains id := by
  induction ids generalizing inv with
  | nil =>
    cases hfold
    exact ⟨h, by simp⟩
  | cons first ids ih =>
    obtain ⟨middle, hfirst, hrest⟩ := bind_ok.mp hfold
    obtain ⟨hmid, hobs⟩ := inventoryObject_eq_ok hids h hfirst
    obtain ⟨hend, hkeep⟩ := ih hmid hrest
    refine ⟨hend, fun id hid => hkeep id ?_⟩
    rw [hobs]
    rcases hid with hid | hid
    · exact .inl (.inl hid)
    · exact (mem_cons.mp hid).elim (fun heq => .inl (.inr heq)) .inr

/-- The objects of retained packs are kept, and with what is required they are closed. -/
lemma protectObjects_eq_ok {boundaries : Boundaries} {kept : Walked}
    (hinfo : InfoSound cont objectInfo) (hena : boundaries.enabled = false)
    (hneed : Closed (Edge repo cont) {id | required.contains id})
    (h : protectObjects repo pol observation required objectInfo boundaries = .ok kept) :
    Closed (Edge repo cont) ({id | required.contains id} ∪ {id | kept.reachable.contains id}) ∧
      ∀ found, candidates pol repo.objects.format repo.objects.primary = .ok found → found ≠ [] →
        ∀ pack ∈ repo.objects.primary.packs, pack.stem ∈ retainedPacks observation →
          ∀ id ∈ pack.identities, kept.reachable.contains id := by
  obtain ⟨found, hgot, h⟩ := bind_ok.mp h
  rw [wrapError_eq_ok] at hgot
  simp only at h
  split_ifs at h with hbra
  · simp only [inventoryPacks, bind_ok] at h
    obtain ⟨inv, ⟨-, -, -, -, hinv⟩, walked, hwal, hlast⟩ := h
    cases hlast
    obtain ⟨hsound, hobs⟩ := inventoryObjects_eq_ok hids ⟨hinfo, fun id hid => by cases hid⟩ hinv
    obtain ⟨hwalk, -, -⟩ := walk_eq_ok hids hsound.info hena hwal
    have hkept : ∀ id, (addIds inv.objects (walked.reachable.entries.map Prod.fst)).contains id ↔
        inv.objects.contains id ∨ walked.reachable.contains id := by
      intro id
      rw [contains_addIds, ← OrdMap.contains_iff]
    constructor
    · rintro id (hid | hid) target hedge
      · exact .inl (hneed id hid target hedge)
      have hfol : walked.reachable.contains id → walked.reachable.contains target := fun hrea =>
        (hwalk target).mpr (((hwalk id).mp hrea).step hedge)
      rcases (hkept id).mp hid with hid | hid
      · rcases hsound.objects id hid with ⟨object, hobj, hblob⟩ | hreq | hroot
        · rw [edge_iff hobj] at hedge
          simp [Object.edges, hblob] at hedge
        · exact .inl (hneed id hreq target hedge)
        · exact .inr ((hkept target).mpr (.inr (hfol ((hwalk id).mpr (.root hroot)))))
      · exact .inr ((hkept target).mpr (.inr (hfol hid)))
    · intro _ _ _ pack hpack hstem id hid
      refine (hkept id).mpr (.inl (hobs id (.inr ?_)))
      exact mem_flatMap.mpr ⟨pack, mem_filter.mpr ⟨hpack, by simpa using hstem⟩, hid⟩
  · cases h
    constructor
    · rintro id (hid | hid) target hedge
      · exact .inl (hneed id hid target hedge)
      · cases hid
    intro found' hgot' hne pack hpack hstem
    rw [hgot] at hgot'
    cases hgot'
    refine absurd ⟨.inl hne, fun hnone => ?_⟩ hbra
    rw [hnone] at hstem
    cases hstem

/-- A complete plan keeps what the roots reach, and what the packs that stay hold or reach. So it does
after the expiry of reflog records, whose identities are roots no more. -/
lemma planRetention_eq_ok (hpro : repo.objects.partialClone = false)
    (h : planRetention repo pol fold founds = .ok plan) : observeRoots pol repo fold founds = .ok plan.observation ∧
      ∀ found, candidates pol repo.objects.format repo.objects.primary = .ok found → found ≠ [] →
        ∀ given ∈ [plan, plan.expire], ∀ id, Reach (Edge repo cont)
          ({id | given.observation.roots.contains id ∨ given.required.contains id} ∪ StayingObjects pol repo) id →
            id ∈ Kept given := by
  simp only [planRetention, bind_ok] at h
  obtain ⟨observation, hobs, -, -, reached, hreac, live, hlive, requiredRoots, hlogs, required,
    hreq, kept, hkept, -, -, -, -, hplan⟩ := h
  cases hplan
  have hst : InfoSound cont OrdMap.empty := fun id info hinfo => by cases hinfo
  have hena : (Boundaries.new pol repo.objects).enabled = false := by simp [Boundaries.new, hpro]
  obtain ⟨hrea, hinfo, hena⟩ := walk_eq_ok hids hst hena hreac
  obtain ⟨hliv, hinfo, hena⟩ := walkUnless_eq_ok hids hrea hinfo hena hlive
  have hroots := requireLogs_eq_ok hlogs
  obtain ⟨hneed, hinfo, hena⟩ :
      (∀ id, required.reachable.contains id ↔
        Reach (Edge repo cont) {id | requiredRoots.contains id} id) ∧
      InfoSound cont required.objectInfo ∧ required.boundaries.enabled = false := by
    unfold walkRequired at hreq
    split_ifs at hreq with hsame
    · cases hreq
      have hsame : requiredRoots = observation.roots := OrdMap.ext hsame
      exact ⟨hsame ▸ hrea, hinfo, hena⟩
    · exact walkUnless_eq_ok hids hliv hinfo hena hreq
  have hcl : Closed (Edge repo cont) {id | required.reachable.contains id} :=
    fun other hoth target hedge =>
    (hneed target).mpr (((hneed other).mp hoth).step hedge)
  obtain ⟨hprotect, hpac⟩ := protectObjects_eq_ok hids hinfo hena hcl hkept
  have hsub : ∀ other, required.reachable.contains other → reached.reachable.contains other :=
    fun other hoth => (hrea other).mpr (((hneed other).mp hoth).mono fun root => (hroots root).2)
  refine ⟨hobs, fun found hgot hne => ?_⟩
  have hsta : ∀ root ∈ StayingObjects pol repo, kept.reachable.contains root := by
    rintro root ⟨pack, hpack, hsta, hroot⟩
    exact hpac found hgot hne pack hpack (retained_of_stays hobs hsta) root hroot
  refine forall_mem_cons.mpr ⟨fun id => ?_, forall_mem_singleton.mpr fun id => ?_⟩
  · -- what is reachable together with what is protected is closed, since what is required is reachable
    refine Closed.reach ?_ ?_
    · rintro other (hoth | hoth) target hedge
      · exact .inl ((hrea target).mpr (((hrea other).mp hoth).step hedge))
      · exact (hprotect other (.inr hoth) target hedge).imp_left (hsub target)
    · rintro root ((hroot | hroot) | hroot)
      · exact .inl ((hrea root).mpr (.root hroot))
      · exact .inl (hsub root hroot)
      · exact .inr (hsta root hroot)
  · refine hprotect.reach ?_
    rintro root ((hroot | hroot) | hroot)
    · exact .inl ((hneed root).mpr (.root ((hroots root).1 hroot)))
    · exact .inl hroot
    · exact .inr (hsta root hroot)

end Plan

section Removal

variable {path : LoosePath}

/-- The path of a candidate spells its identity. -/
def Spelled (format : ObjectFormat) (cand : Candidate) : Prop :=
  fromHex format (cand.path.1 ++ cand.path.2) = some cand.id

lemma candidateFiles_eq_ok {fanout : Bytes} {files : List LooseFile}
    {state state' : Nat × List Candidate} (h : files.foldlM (candidateFile pol format fanout) state = .ok state')
    (hsta : ∀ cand ∈ state.2, Spelled format cand) : ∀ cand ∈ state'.2, Spelled format cand := by
  refine foldlM_induct (P := fun later => ∀ cand ∈ later.2, Spelled format cand) ?_ hsta h
  intro pre file after _ hbf hstep
  simp only [candidateFile, reject_bind] at hstep
  obtain ⟨-, -, -, hstep⟩ := hstep
  split at hstep
  · cases hstep
  rename_i id hid
  split_ifs at hstep
  · cases hstep
    intro cand hcan
    rcases mem_append.mp hcan with hcan | hcan
    · exact hbf cand hcan
    · rw [mem_singleton.mp hcan]
      exact hid
  · cases hstep
    exact hbf

lemma candidates_eq_ok {store : Store} {found : List Candidate}
    (h : candidates pol format store = .ok found) :
    ∀ candidate ∈ found, Spelled format candidate := by
  obtain ⟨state, hfold, hlast⟩ := bind_ok.mp h
  cases hlast
  have hsta := foldlM_induct (P := fun later : Nat × List Candidate =>
    ∀ cand ∈ later.2, Spelled format cand)
    ?_ (by simp) hfold
  · intro candidate hcan
    exact hsta candidate ((mem_insertionSort _).mp hcan)
  intro before entry after _ hbf hstep
  obtain ⟨⟨⟩, -, hstep⟩ := bind_ok.mp hstep
  cases entry with
  | pack isDir files =>
    cases hstep
    exact hbf
  | other name isDir files =>
    simp only at hstep
    split_ifs at hstep
    · cases hstep
      exact hbf
    simp only [reject_bind] at hstep
    exact candidateFiles_eq_ok hstep.2.2.2 hbf

def PruneRun.touched (run : PruneRun) : List ObjectId :=
  match run.result with
  | .ok deleted => deleted
  | .error failure => failure.deleted ++ failure.uncertain.toList

lemma fileAt_removeFile (store : Store) {other : LoosePath} (h : other ≠ path) :
    (store.removeFile path).fileAt other = store.fileAt other := by
  unfold Store.fileAt Store.removeFile
  induction store.entries with
  | nil => rfl
  | cons ent ents ih =>
    have hen : (DirEntry.filesOf other.1 (ent.removeFile path)).find? (·.name = other.2) =
        (ent.filesOf other.1).find? (·.name = other.2) := by
      cases ent with
      | pack isDir files => rfl
      | other name isDir files =>
        cases isDir with
        | false => rfl
        | true =>
          simp only [DirEntry.removeFile, DirEntry.filesOf]
          split_ifs with hname hpath
          · have hfile : ¬ other.2 = path.2 := fun hfile => h (Prod.ext (hname.symm.trans hpath) hfile)
            rw [find?_filter]
            congr 1
            funext file
            by_cases hsame : file.name = other.2
            · simp [hsame, hfile]
            · simp [hsame]
          · rfl
          · rfl
    rw [map_cons, flatMap_cons, flatMap_cons, find?_append, find?_append, hen, ih]

lemma read_removeFile (repo : Repository) {id : ObjectId} (h : Store.loosePath id ≠ path) :
    (repo.removeFile path).objects.read id = repo.objects.read id := by
  have hloo : (repo.objects.primary.removeFile path).looseCopy id = repo.objects.primary.looseCopy id := by
    rw [Store.looseCopy, fileAt_removeFile _ h, Store.looseCopy]
  have hsto : ∀ damage stores, (repo.removeFile path).objects.readStores id damage stores =
      repo.objects.readStores id damage stores := by
    intro damage stores
    induction stores generalizing damage with
    | nil => cases damage <;> rfl
    | cons store stores ih => simp only [Objects.readStores, ih]
  have hfirst : ∀ damage stores, repo.objects.readStores id damage (repo.objects.primary.removeFile path :: stores) =
      repo.objects.readStores id damage (repo.objects.primary :: stores) := by
    intro damage stores
    simp only [Objects.readStores, hloo]
    rfl
  rw [Objects.read, hsto]
  exact hfirst none repo.objects.alternates

lemma loosePath_ne {format : ObjectFormat} {path : LoosePath} {id other : ObjectId}
    (hpath : fromHex format (path.1 ++ path.2) = some other) (hne : id ≠ other) :
    Store.loosePath id ≠ path := by
  rintro rfl
  rw [Store.loosePath, take_append_drop, fromHex, idText_length] at hpath
  split_ifs at hpath with hlen
  have hform : id.format = format := by
    cases hid : id.format <;> cases format <;> simp_all [ObjectFormat.digestLen]
  rw [← hform, hexBytes_idText] at hpath
  exact hne (Option.some.inj hpath)

/-- A run leaves what is needed: it touches no needed identity, each file that is gone spells an identity
that is not needed, and what is needed reads as before. -/
structure PruneSafe (Needed : ObjectId → Prop) (repo : Repository) (run : PruneRun) : Prop where
  touched : ∀ id ∈ run.touched, ¬ Needed id
  files : ∀ path, run.repo.objects.primary.fileAt path ≠ repo.objects.primary.fileAt path →
    ∃ id, ObjectId.fromHex repo.objects.format (path.1 ++ path.2) = some id ∧ ¬ Needed id
  reads : ∀ id, Needed id → run.repo.objects.read id = repo.objects.read id

section Safe

variable {Needed : ObjectId → Prop} {run : PruneRun}

lemma pruneSafe_of_unchanged (hrepo : run.repo = repo) (h : ∀ id ∈ run.touched, ¬ Needed id) :
    PruneSafe Needed repo run :=
  ⟨h, fun path hpath => absurd (by rw [hrepo]) hpath, fun id _ => by rw [hrepo]⟩

lemma PruneSafe.removeFile {cand : Candidate} (hspelled : Spelled repo.objects.format cand)
    (hfree : ¬ Needed cand.id) (h : PruneSafe Needed (repo.removeFile cand.path) run) :
    PruneSafe Needed repo run := by
  refine ⟨h.touched, fun path hchanged => ?_, fun id hneed => ?_⟩
  · by_cases hpath : path = cand.path
    · exact ⟨cand.id, hpath ▸ hspelled, hfree⟩
    · refine h.files path fun hsame => hchanged (hsame.trans ?_)
      exact fileAt_removeFile _ hpath
  · refine (h.reads id hneed).trans (read_removeFile repo (loosePath_ne hspelled ?_))
    rintro rfl
    exact hfree hneed

lemma PruneSafe.mono {Needed' : ObjectId → Prop} (h : PruneSafe Needed repo run)
    (hneed : ∀ id, Needed' id → Needed id) : PruneSafe Needed' repo run := by
  refine ⟨fun id hid => mt (hneed id) (h.touched id hid), fun path hpath => ?_,
    fun id hid => h.reads id (hneed id hid)⟩
  obtain ⟨id, hid, hfree⟩ := h.files path hpath
  exact ⟨id, hid, mt (hneed id) hfree⟩

end Safe

/-- A run removes only files of candidates that the plan does not keep. -/
lemma pruneCandidates_safe (plan : RetentionPlan) (attempt : Nat → Attempt)
    {deleted : List ObjectId} {index : Nat}
    {observed : List Candidate} (hspelled : ∀ cand ∈ observed, Spelled repo.objects.format cand)
    (hdeleted : ∀ id ∈ deleted, id ∉ Kept plan) :
    PruneSafe (· ∈ Kept plan) repo (pruneCandidates plan attempt repo deleted index observed) := by
  induction observed generalizing repo deleted index with
  | nil => exact pruneSafe_of_unchanged rfl hdeleted
  | cons cand rest ih =>
    have hstop : ∀ cause, PruneSafe (· ∈ Kept plan) repo ⟨repo, .error ⟨cause, deleted, none⟩⟩ :=
      fun cause =>
      pruneSafe_of_unchanged rfl (by simpa [PruneRun.touched] using hdeleted)
    obtain ⟨hcand, hrest⟩ := forall_mem_cons.mp hspelled
    rw [pruneCandidates]
    split_ifs with hcancel hkept
    · exact hstop _
    · exact ih hrest hdeleted
    · exact hstop _
    have hfree : cand.id ∉ Kept plan := by
      rw [Bool.or_eq_true] at hkept
      exact hkept
    have hmore : ∀ id ∈ deleted ++ [cand.id], id ∉ Kept plan :=
      forall_mem_append.mpr ⟨hdeleted, forall_mem_singleton.mpr hfree⟩
    split
    · exact hstop _
    split_ifs
    · exact hstop _
    split
    · exact hstop _
    split
    · exact .removeFile hcand hfree (ih hrest hmore)
    · rename_i gone hgone
      cases gone with
      | true => exact .removeFile hcand hfree (pruneSafe_of_unchanged rfl hmore)
      | false => exact pruneSafe_of_unchanged rfl hmore

/-- The roots that were collected for the plan of a session and what it requires, or the roots of a new
plan. -/
def SessionRoots (pol : RetentionPolicy) (repo : Repository) (session : Option RetentionPlan)
    (founds : List Found) : Set ObjectId :=
  {id | match session with
    | some plan => plan.observation.roots.contains id = true ∨ plan.required.contains id = true
    | none => ∃ observation, observeRoots pol repo false founds = .ok observation ∧
        observation.roots.contains id = true}

/-- A plan that pruning may be given: the one that a session has made, also after expiry. -/
def Given (pol : RetentionPolicy) (repo : Repository) (founds : List Found) (plan : RetentionPlan) : Prop :=
  ∃ fold checks made, sessionPlan pol repo fold founds checks = .ok made ∧ plan ∈ [made, made.expire]

/-- A run with its plan: what it may remove, and what the plan keeps. -/
lemma preparePrune_eq_ok (hids : repo.objects.Identified cont) {session : Option RetentionPlan}
    {checks : PruneChecks} {observed : List Candidate} (hses : ∀ plan ∈ session, Given pol repo founds plan)
    (h : preparePrune pol repo session founds checks = .ok (some (observed, plan))) :
    candidates pol repo.objects.format repo.objects.primary = .ok observed ∧
      (observed ≠ [] → ∀ id, Reach (Edge repo cont)
        (SessionRoots pol repo session founds ∪ StayingObjects pol repo) id → id ∈ Kept plan) := by
  simp only [preparePrune, bind_ok, reject_ok, Bool.not_eq_true] at h
  obtain ⟨-, -, -, hpro, found, hgot, h⟩ := h
  split_ifs at h
  · cases h
  simp only [bind_ok] at h
  obtain ⟨made, hmade, -, -, repeated, -, -, -, hlast⟩ := h
  cases hlast
  refine ⟨hgot, fun hne id hrea => ?_⟩
  simp only [planOf, Given, sessionPlan, bind_ok] at hmade hses
  cases session with
  | some given =>
    cases hmade
    obtain ⟨fold, checks, made, ⟨-, -, made, hmade, -, -, hlast⟩, hplan⟩ := hses _ rfl
    cases hlast
    exact (planRetention_eq_ok hids hpro hmade).2 _ hgot hne _ hplan id hrea
  | none =>
    simp only [wrapError_eq_ok, bind_ok] at hmade
    obtain ⟨-, -, made, hplan, -, -, hlast⟩ := hmade
    cases hlast
    obtain ⟨hobs, hkept⟩ := planRetention_eq_ok hids hpro hplan
    refine hkept _ hgot hne _ (.head _) id (hrea.mono (Set.union_subset_union_left _ ?_))
    rintro id ⟨observation, hsame, hid⟩
    rw [hobs] at hsame
    cases hsame
    exact .inl hid

/-- Whatever pruning removes, in a run that ends or in one that stops, is reached neither from the roots
nor from an object of a pack that stays, and it is in no such pack. -/
theorem prune_removes_unreachable (policy : RetentionPolicy) (repo : Repository)
    (contents : ObjectId → Option Object)
    (hids : repo.objects.Identified contents) (session : Option RetentionPlan) (founds : List Found)
    (checks : PruneChecks) (attempt : Nat → Attempt)
    (hsession : ∀ plan ∈ session, Given policy repo founds plan) :
    PruneSafe (Reach (Edge repo contents) (SessionRoots policy repo session founds ∪ StayingObjects policy repo)) repo
      (prunePlanned policy repo session founds checks attempt) := by
  unfold prunePlanned
  cases hprep : preparePrune policy repo session founds checks with
  | error cause => exact pruneSafe_of_unchanged rfl (by simp [PruneRun.touched])
  | ok prepared =>
    rcases prepared with - | ⟨observed, plan⟩
    · exact pruneSafe_of_unchanged rfl (by simp [PruneRun.touched])
    obtain ⟨hfound, hkept⟩ := preparePrune_eq_ok hids hsession hprep
    cases observed with
    | nil => exact pruneSafe_of_unchanged rfl (by simp [pruneCandidates, PruneRun.touched])
    | cons first rest =>
      exact (pruneCandidates_safe plan attempt (candidates_eq_ok hfound) (by simp)).mono (hkept (by simp))

section Sample

def sampleTreeBytes : Bytes :=
  [75, 130, 93, 198, 66, 203, 110, 185, 160, 96, 229, 75, 248, 214, 146, 136, 251, 238, 73, 4]

def sampleTree : ObjectId := ⟨.sha1, sampleTreeBytes, rfl⟩

def looseBlob (byte : UInt8) : ObjectId := ⟨.sha1, 170 :: List.replicate 19 byte, rfl⟩

def packedTree : ObjectId := ⟨.sha1, List.replicate 20 204, rfl⟩

def packedTreeData : Bytes := ascii "100644 file" ++ 0 :: (looseBlob 187).bytes

def sampleContents (id : ObjectId) : Option Object :=
  if id = sampleTree then some ⟨.tree, []⟩
  else if id = packedTree then some ⟨.tree, packedTreeData⟩
  else if id ∈ [looseBlob 170, looseBlob 187] then some ⟨.blob, ascii "old"⟩
  else none

def sampleFile (letter : UInt8) : LooseFile where
  name := List.replicate 38 letter
  regular := true
  len := 3
  modified := 5
  copy := ⟨.ok (.blob, 3), .ok ⟨.blob, ascii "old"⟩⟩

/-- Two old blobs, and a pack with a marker, whose tree has the second of them. -/
def sampleRepository : Repository where
  shallowRoots := []
  objects := {
    format := .sha1
    emptyTree := sampleTree
    primary := {
      entries := [.pack true [⟨ascii "pack", some (ascii "keep"), true, 5⟩],
        .other (ascii "aa") true [sampleFile 97, sampleFile 98]]
      packs := [⟨ascii "pack", [(packedTree, ⟨.ok (.tree, 32), .ok ⟨.tree, packedTreeData⟩⟩)]⟩] }
    alternates := []
    partialClone := false
    promised := .ok []
    indexes := .ok ()
    checksums := .ok ()
    unchanged := .ok ()
    blobKinds := fun _ => .ok () }

def samplePolicy : RetentionPolicy where
  heads := []
  recentCutoff := some 10
  reflogExpiry := .keepAll
  maxEntries := 10
  maxEdges := 10
  maxBytes := 50
  partialClone := .refuse
  maxPromisedBoundaries := 0

def noChecks : PruneChecks := ⟨.ok (), .ok (), .ok ()⟩

def removes : Nat → Attempt := fun _ => ⟨false, false, .ok (), .removed⟩

lemma sampleRepository_identified : sampleRepository.objects.Identified sampleContents := by
  have hpri : ∀ store ∈ sampleRepository.objects.stores, store = sampleRepository.objects.primary := by
    intro store hsto
    exact mem_singleton.mp hsto
  refine ⟨rfl, fun store hsto pack hpack id copy hcopy => ?_, fun store hsto id copy hcopy => ?_⟩
  · rw [hpri store hsto] at hpack
    cases mem_singleton.mp hpack
    obtain ⟨entry, hentry, rfl⟩ := Option.map_eq_some_iff.mp hcopy
    cases mem_singleton.mp (mem_of_find?_eq_some hentry)
    have hid : packedTree = id := by simpa using find?_some hentry
    subst hid
    refine ⟨fun obj hobj => ?_, fun kind size hhd => ?_⟩
    · cases hobj
      rfl
    · cases hhd
      exact ⟨_, rfl, rfl⟩
  rw [hpri store hsto] at hcopy
  obtain ⟨file, hfile, rfl⟩ := Option.map_eq_some_iff.mp hcopy
  have hname : file.name = (Store.loosePath id).2 := by simpa using find?_some hfile
  have hmem := mem_of_find?_eq_some hfile
  simp only [sampleRepository, flatMap_cons, DirEntry.filesOf, nil_append, flatMap_nil, append_nil] at hmem
  split_ifs at hmem with hfan
  · have hid : ∀ byte {letter}, file = sampleFile letter →
        fromHex .sha1 (ascii "aa" ++ replicate 38 letter) = some (looseBlob byte) → id = looseBlob byte := by
      rintro byte letter rfl hhex
      by_contra hne
      exact @loosePath_ne .sha1 (ascii "aa", _) id _ hhex hne (Prod.ext hfan.symm hname.symm)
    have hold : sampleContents id = some ⟨.blob, ascii "old"⟩ ∧ file.copy = (sampleFile 97).copy := by
      rcases mem_cons.mp hmem with hfile | hfile
      · rw [hid 170 hfile (by decide +kernel), hfile]
        exact ⟨rfl, rfl⟩
      · rw [hid 187 (mem_singleton.mp hfile) (by decide +kernel), mem_singleton.mp hfile]
        exact ⟨rfl, rfl⟩
    rw [hold.2]
    refine ⟨fun obj hobj => ?_, fun kind size hhd => ?_⟩
    · cases hobj
      exact hold.1
    · cases hhd
      exact ⟨_, hold.1, rfl⟩
  · cases hmem

/-- The session's plan after expiry keeps the blob of the marked pack's tree, and the other one goes. -/
theorem prune_removes_unreachable_blob :
    let session := (sessionPlan samplePolicy sampleRepository false [.root sampleTree] noChecks).toOption.map
      RetentionPlan.expire
    (prunePlanned samplePolicy sampleRepository session [.root sampleTree] noChecks removes).touched = [looseBlob 170] ∧
      PruneSafe (Reach (Edge sampleRepository sampleContents)
        (SessionRoots samplePolicy sampleRepository session [.root sampleTree] ∪
          StayingObjects samplePolicy sampleRepository)) sampleRepository
        (prunePlanned samplePolicy sampleRepository session [.root sampleTree] noChecks removes) := by
  refine ⟨by decide +kernel, prune_removes_unreachable _ _ _ sampleRepository_identified _ _ _ _ ?_⟩
  intro plan hplan
  cases hmade : sessionPlan samplePolicy sampleRepository false [.root sampleTree] noChecks with
  | error error =>
    rw [hmade] at hplan
    cases hplan
  | ok made =>
    rw [hmade] at hplan
    cases hplan
    exact ⟨false, noChecks, made, hmade, by simp⟩

end Sample

end Removal

end Girt.Retention
