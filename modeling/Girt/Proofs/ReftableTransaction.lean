import Girt.Proofs.ReftablePrepare

/-!
# Transactions refine the abstract store

Publishing a prepared batch makes the view it was prepared for the view that is read.
-/

namespace Girt.Proofs

open ByteLib Girt.Refs Girt.Refs.Reftable List
open Snapshot (read)

variable {result : List RefEditOutcome} {operation : Option Nat} {source : ReferenceError}

section Publish

variable {codec : Codec} {refs : References} {store store' : Stacks} {pre acc : StoreView} {g g' : Group}
variable {lim : StackLimits} {sufs : Path → List UInt32} {groups : List Group} {outs : List RefEditOutcome}
  {edits : List RefEdit}

lemma decodeUsage_ne_nil {zlib : Zlib} {crc32 : Bytes → UInt32} {bs : Bytes} {lim : Limits}
    {usage : Table × Nat × Nat} (h : Table.decodeUsage zlib crc32 bs lim = .ok usage) :
    bs ≠ [] := by
  rintro rfl
  simp only [Table.decodeUsage, bind_ok] at h
  obtain ⟨-, -, f, hframe, -⟩ := h
  simp only [Frame.read, bind_ok] at hframe
  obtain ⟨hdr, hhd, -⟩ := hframe
  cases hhd

/-- A finished group has either nothing to publish, or a table that fits the rest of the budget. -/
structure Finished (codec : Codec) (limits : StackLimits) (g g' : Group) (records decoded : Nat) : Prop where
  touched : ¬ (g.table.references = [] ∧ g.table.logs = [])
  ne_nil : g'.bytes ≠ []
  table : g'.table = g.sort.table
  usage : Table.decodeUsage codec.zlib codec.crc32 g'.bytes limits.records = .ok (g'.table, records, decoded)
  bytes : g'.bytes.length ≤ limits.records.bytes.toNat - g.snapshot.usedBytes
  records : records ≤ limits.records.records.toNat - g.snapshot.usedRecords
  decoded : decoded ≤ limits.records.decodedBytes.toNat - g.snapshot.usedDecoded

lemma finish_spec (hz : codec.zlib.Inverts) (hbs : g.bytes = [])
    (h : g.finish codec lim = .ok g') :
    g'.root = g.root ∧ g'.snapshot = g.snapshot ∧
      ((g'.bytes = [] ∧ g.table.references = [] ∧ g.table.logs = []) ∨
        ∃ recs dec, Finished codec lim g g' recs dec) := by
  have hemp : (g.sort.table.references = [] ∧ g.sort.table.logs = []) ↔
      (g.table.references = [] ∧ g.table.logs = []) := by
    simp [Group.sort, ← length_eq_zero_iff]
  unfold Group.finish at h
  split_ifs at h with hnone
  · cases h
    exact ⟨rfl, rfl, Or.inl ⟨hbs, hemp.mp hnone⟩⟩
  simp only [Group.encode, bind_ok, wrapError_eq_ok, reject_ok, not_or, not_lt, ge_iff_le, not_le,
    gt_iff_lt] at h
  obtain ⟨bs, henc, ⟨table, recs, dec⟩, husa, -, ⟨-, hlen, hrecs, hdec, -⟩, h⟩ := h
  cases h
  obtain ⟨hlay, -⟩ := encode_eq_ok henc
  have hcost : Table.decode codec.zlib codec.crc32 bs lim.records = .ok table := by
    rw [Table.decode, bind_ok]
    exact ⟨_, husa, rfl⟩
  obtain rfl : table = g.sort.table := decode_layout hz hlay hcost
  refine ⟨rfl, rfl, Or.inr ⟨recs, dec, ?_⟩⟩
  exact ⟨fun hno => hnone (hemp.mpr hno), decodeUsage_ne_nil husa, rfl, husa, hlen, hrecs, hdec⟩

lemma finish_frame (h : g.finish codec lim = .ok g') : g'.root = g.root := by
  unfold Group.finish at h
  split_ifs at h
  · cases h
    rfl
  simp only [Group.encode, bind_ok] at h
  obtain ⟨bs, -, ⟨table, recs, dec⟩, -, -, -, h⟩ := h
  cases h
  rfl

lemma publishGroups_ok (hnd : (groups.map Group.root).Nodup)
    (h : publishGroups lim sufs groups store outs = (store', .ok result)) :
    (∀ g ∈ groups, if g.bytes = [] then store' g.root = store g.root else publish lim (store g.root)
      g.snapshot.names g.table g.bytes (sufs g.root) = .ok (store' g.root)) ∧
      ∀ root, root ∉ groups.map Group.root → store' root = store root := by
  induction groups generalizing store outs with
  | nil =>
    cases h
    exact ⟨by simp, fun _ _ => rfl⟩
  | cons g groups ih =>
    rw [map_cons, nodup_cons] at hnd
    rw [publishGroups] at h
    by_cases hbs : g.bytes = []
    · rw [if_pos hbs] at h
      obtain ⟨hgro, hoth⟩ := ih hnd.2 h
      refine ⟨?_, ?_⟩
      · intro g' hg'
        rcases mem_cons.mp hg' with rfl | hg'
        · rw [if_pos hbs]
          exact hoth _ hnd.1
        · exact hgro g' hg'
      · intro root hroot
        rw [map_cons, mem_cons, not_or] at hroot
        exact hoth root hroot.2
    · rw [if_neg hbs] at h
      split at h
      · cases h
      rename_i dir hdir
      obtain ⟨hgro, hoth⟩ := ih hnd.2 h
      refine ⟨?_, ?_⟩
      · intro g' hg'
        rcases mem_cons.mp hg' with rfl | hg'
        · rw [if_neg hbs, hoth _ hnd.1, Function.update_self]
          exact hdir
        · have hne : g'.root ≠ g.root := fun heq => hnd.1 (heq ▸ mem_map_of_mem hg')
          have hg := hgro g' hg'
          rwa [Function.update_of_ne hne] at hg
      · intro root hroot
        rw [map_cons, mem_cons, not_or] at hroot
        rw [hoth root hroot.2, Function.update_of_ne hroot.1]

lemma pairwise_inj {γ κ : Type} [LinearOrder κ] {f : γ → κ} {l : List γ}
    (h : l.Pairwise (f · < f ·)) {a b : γ} (ha : a ∈ l) (hb : b ∈ l) (heq : f a = f b) : a = b := by
  have hnd : (l.map f).Nodup := by
    rw [nodup_iff_pairwise_ne, pairwise_map]
    exact h.imp (·.ne)
  exact inj_on_of_nodup_map hnd ha hb heq

lemma mergedView_sort {merge : Merge} (htab : TableOrdered g.sort.table) (last : UInt64) :
    mergedView (merge.add g.sort.table).references (merge.add g.sort.table).logs last =
      mergedView (merge.add g.table).references (merge.add g.table).logs last := by
  have hrefs : (merge.add g.sort.table).references = (merge.add g.table).references := by
    apply OrdMap.insertAll_congr
    · rintro e he e' he' heq
      obtain ⟨r, hr, rfl⟩ := mem_map.mp he
      obtain ⟨r', hr', rfl⟩ := mem_map.mp he'
      exact pairwise_inj htab.references hr hr' heq
    · simp [Group.sort]
  have hlogs : (merge.add g.sort.table).logs = (merge.add g.table).logs := by
    apply OrdMap.insertAll_congr
    · rintro e he e' he' heq
      obtain ⟨r, hr, rfl⟩ := mem_map.mp he
      obtain ⟨r', hr', rfl⟩ := mem_map.mp he'
      obtain ⟨hname, hidx⟩ := entryKey_inj.mp heq
      refine pairwise_inj htab.logs hr hr' ?_
      rw [hname, hidx]
    · simp [Group.sort]
  rw [hrefs, hlogs]

/-- A published group is read back as the view its table was built for. -/
lemma read_group {batch : Batch} (ho : Opened codec refs store pre batch.groups)
    (hi : BatchInv refs pre acc batch) (hg : g ∈ batch.groups) {recs dec : Nat} {dir : StackDir}
    {sufs : List UInt32} (hroot : g'.root = g.root) (hsna : g'.snapshot = g.snapshot)
    (hfin : Finished codec refs.limits g g' recs dec)
    (hpub : publish refs.limits (store g'.root) g'.snapshot.names g'.table g'.bytes sufs = .ok dir) :
    (∃ s, read codec dir refs.format refs.limits = .ok s ∧ s.table.view = acc g.root) ∧
      Extends codec refs (store g.root) dir := by
  obtain ⟨hview, files, merge, hread⟩ := ho.read hg
  obtain ⟨hform, hmin, hmax, hnext, -⟩ := ho.tables g hg
  have hlast : (pre g.root).last = merge.max := by
    rw [← hview, hread.view]
    rfl
  have hsnap := hread.snapshot
  have hused : g.snapshot.usedBytes = refs.limits.records.bytes.toNat - merge.remaining.bytes.toNat ∧
      g.snapshot.usedRecords = refs.limits.records.records.toNat - merge.remaining.records.toNat ∧
      g.snapshot.usedDecoded = refs.limits.records.decodedBytes.toNat - merge.remaining.decodedBytes.toNat := by
    rw [hsnap]
    exact ⟨rfl, rfl, rfl⟩
  have hfr : merge.max < g'.table.minUpdateIndex := by
    rw [hfin.table]
    change merge.max < g.table.minUpdateIndex
    rw [hmin, hlast, UInt64.lt_iff_toNat_lt, UInt64.toNat_add]
    rw [hlast] at hnext
    simp only [UInt64.toNat_one]
    omega
  rw [hroot, hsna] at hpub
  have hbs := hfin.bytes
  have hrecs := hfin.records
  have hcost := hfin.decoded
  obtain ⟨name, hfile, hrea⟩ := read_publish hread hpub hfin.usage
    (by rw [hfin.table]; exact hform) (fun _ => hfr) (by omega) (by omega) (by omega)
  refine ⟨⟨_, hrea, ?_⟩, ?_⟩
  · have hord := decodeUsage_ordered hfin.usage
    rw [hfin.table] at hord
    have hnon := hfin.touched
    rw [snapshot_view, hfin.table]
    have hsort := @mergedView_sort g merge hord (merge.add g.table).max
    have hove := mergedView_insertAll merge.references merge.logs g.table.references g.table.logs merge.max
      (merge.add g.table).max
    rw [← hread.view, hview] at hove
    rw [hi.built g hg, if_neg hnon, ← hmax]
    exact hsort.trans hove
  · have hdec : Table.decode codec.zlib codec.crc32 g'.bytes refs.limits.records = .ok g'.table := by
      rw [Table.decode, bind_ok]
      exact ⟨_, hfin.usage, rfl⟩
    refine ⟨g.snapshot, _, name, g'.bytes, g'.table, (ho.snapshots g hg).2, hrea, rfl, hfile, hdec, ?_,
      ?_, ?_⟩
    · rw [hsnap]
      exact hfr
    · intro r hr
      exact (hread.bounded.refs _ r (hread.mem_references.mp hr)).2.trans_lt hfr
    · intro r hr
      exact (hread.bounded.logs _ r (hread.mem_logs.mp hr)).2.trans_lt hfr

lemma openGroup_eq_ok {root : Path} (h : openGroup codec refs store root = .ok g) :
    g.root = root ∧ read codec (store root) refs.format refs.limits = .ok g.snapshot ∧
      g.table = ⟨refs.format, g.snapshot.table.maxUpdateIndex + 1, g.snapshot.table.maxUpdateIndex + 1, [], []⟩ ∧
      g.snapshot.table.maxUpdateIndex.toNat + 1 < 2 ^ 64 ∧ g.bytes = [] := by
  simp only [openGroup, bind_ok, reject_ok, not_le, ge_iff_le] at h
  obtain ⟨snap, hread, -, hnext, h⟩ := h
  cases h
  exact ⟨rfl, hread, rfl, hnext, rfl⟩

lemma opened_of_mapM (hread : ReadsAs codec refs store pre)
    (h : (directories refs).mapM (fun root =>
      wrapError (TransactionError.prepare none) (openGroup codec refs store root)) = .ok groups) :
    Opened codec refs store pre groups ∧ ∀ g ∈ groups, g.table.references = [] ∧ g.table.logs = [] := by
  have hopen : List.Forall₂ (openGroup codec refs store · = .ok ·) (directories refs) groups :=
    (forall₂_of_mapM_eq_ok h).imp (fun _ _ hg => wrapError_eq_ok.mp hg)
  have hroots : groups.map Group.root = directories refs := by
    have heq := map_eq_of_forall₂ (f := id) hopen (fun root g hg => (openGroup_eq_ok hg).1.symm)
    rw [← heq, map_id]
  have hgroup : ∀ g ∈ groups, openGroup codec refs store g.root = .ok g ∧
      g.snapshot.table.view = pre g.root := by
    intro g hg
    obtain ⟨root, hroot, hopen⟩ := forall₂_mem_left hopen.flip hg
    obtain ⟨rfl, hsnap, -⟩ := openGroup_eq_ok hopen
    obtain ⟨s, hs, hview⟩ := hread _ hroot
    rw [hsnap] at hs
    cases hs
    exact ⟨hopen, hview⟩
  refine ⟨⟨hroots, ?_, ?_⟩, ?_⟩
  · intro g hg
    exact ⟨(hgroup g hg).2, (openGroup_eq_ok (hgroup g hg).1).2.1⟩
  · intro g hg
    obtain ⟨hopen, hview⟩ := hgroup g hg
    obtain ⟨-, -, htab, hnext, hbs⟩ := openGroup_eq_ok hopen
    rw [← hview, htab]
    exact ⟨rfl, rfl, rfl, hnext, hbs⟩
  · intro g hg
    rw [(openGroup_eq_ok (hgroup g hg).1).2.2.1]
    exact ⟨rfl, rfl⟩

lemma prepare_spec {prepared : Prepared} (hread : ReadsAs codec refs store pre)
    (h : prepare codec refs store edits = .ok prepared) :
    ∃ plans batch, List.Forall₂ (Planned refs pre) edits plans ∧
      Opened codec refs store pre batch.groups ∧
      BatchInv refs pre (StoreView.applyAll refs pre (edits.zip plans)) batch ∧
      List.Forall₂ (·.finish codec refs.limits = .ok ·) batch.groups prepared.groups := by
  simp only [prepare, bind_ok] at h
  obtain ⟨-, -, groups, hgro, batch, hbat, finished, hfin, h⟩ := h
  cases h
  obtain ⟨hope, hemp⟩ := opened_of_mapM hread hgro
  obtain ⟨plans, hpla, ho, hi⟩ := @prepareEdits_run refs pre pre _ _ _ store codec _ hope hope.agrees
    (batchInv_start hemp) hbat
  rw [zipIdx_map_fst] at hpla hi
  refine ⟨plans, batch, hpla, ho, hi, ?_⟩
  exact (forall₂_of_mapM_eq_ok hfin).imp (fun _ _ hg => wrapError_eq_ok.mp hg)

/-- After publication every stack reads as the view its batch was prepared for. -/
lemma publish_spec (hz : codec.zlib.Inverts) {batch : Batch}
    (ho : Opened codec refs store pre batch.groups) (hi : BatchInv refs pre acc batch)
    (hfinish : List.Forall₂ (·.finish codec refs.limits = .ok ·) batch.groups groups)
    (h : publishGroups refs.limits sufs groups store outs = (store', .ok result)) :
    ReadsAs codec refs store' acc ∧ ∀ root, store' root = store root ∨
      (root ∈ directories refs ∧ Extends codec refs (store root) (store' root)) := by
  have hspec : ∀ g ∈ batch.groups, ∃ g' ∈ groups, g'.root = g.root ∧ g'.snapshot = g.snapshot ∧
      ((g'.bytes = [] ∧ g.table.references = [] ∧ g.table.logs = []) ∨
        ∃ records decoded, Finished codec refs.limits g g' records decoded) := by
    intro g hg
    obtain ⟨g', hg', hfin⟩ := forall₂_mem_left hfinish hg
    exact ⟨g', hg', finish_spec hz (ho.tables g hg).2.2.2.2 hfin⟩
  have hroots : groups.map Group.root = directories refs := by
    rw [← ho.roots]
    exact (map_eq_of_forall₂ hfinish (fun g g' hg => (finish_frame hg).symm)).symm
  obtain ⟨hpeel, hoth⟩ := publishGroups_ok (by rw [hroots]; exact directories_nodup refs) h
  have hgroup : ∀ root ∈ directories refs, ∃ g ∈ batch.groups, g.root = root := by
    intro root hroot
    rw [← ho.roots] at hroot
    exact mem_map.mp hroot
  have hsta : ∀ root ∈ directories refs,
      (∃ s, read codec (store' root) refs.format refs.limits = .ok s ∧ s.table.view = acc root) ∧
        (store' root = store root ∨ Extends codec refs (store root) (store' root)) := by
    intro root hroot
    obtain ⟨g, hg, rfl⟩ := hgroup root hroot
    obtain ⟨g', hg', hroot', hsnap, hcase⟩ := hspec g hg
    have hpub := hpeel g' hg'
    rcases hcase with ⟨hbs, hrefs, hlogs⟩ | ⟨records, decoded, hfin⟩
    · rw [if_pos hbs, hroot'] at hpub
      refine ⟨⟨g.snapshot, by rw [hpub]; exact (ho.snapshots g hg).2, ?_⟩, Or.inl hpub⟩
      rw [(ho.snapshots g hg).1, hi.built g hg, if_pos ⟨hrefs, hlogs⟩, hrefs, hlogs]
      rfl
    · rw [if_neg hfin.ne_nil] at hpub
      obtain ⟨hread, hext⟩ := read_group ho hi hg hroot' hsnap hfin hpub
      rw [hroot'] at hread hext
      exact ⟨hread, Or.inr hext⟩
  refine ⟨fun root hroot => (hsta root hroot).1, fun root => ?_⟩
  by_cases hroot : root ∈ directories refs
  · exact (hsta root hroot).2.imp_right (fun hext => ⟨hroot, hext⟩)
  · exact Or.inl (hoth root (by rwa [hroots]))

lemma publishGroups_error :
    publishGroups lim sufs groups store outs ≠ (store', .error (.prepare operation source)) := by
  induction groups generalizing store outs with
  | nil =>
    intro h
    cases h
  | cons g groups ih =>
    rw [publishGroups]
    split_ifs
    · exact ih
    split
    · intro h
      cases h
    · exact ih

lemma transaction_eq_ok (hz : codec.zlib.Inverts) (hread : ReadsAs codec refs store pre)
    (h : transaction codec refs sufs store edits = (store', .ok outs)) :
    ∃ plans, List.Forall₂ (Planned refs pre) edits plans ∧
      ReadsAs codec refs store' (StoreView.applyAll refs pre (edits.zip plans)) ∧
      (∀ root, store' root = store root ∨
        (root ∈ directories refs ∧ Extends codec refs (store root) (store' root))) ∧
      (pre.PrefixFree refs → (StoreView.applyAll refs pre (edits.zip plans)).PrefixFree refs) := by
  unfold transaction at h
  split_ifs at h with hedi
  · cases h
    subst hedi
    exact ⟨[], .nil, hread, fun root => Or.inl rfl, id⟩
  split at h
  · cases h
  rename_i prepared hpre
  obtain ⟨-, -, hpre⟩ := bind_ok.mp hpre
  obtain ⟨plans, batch, hpla, ho, hi, hfin⟩ := prepare_spec hread hpre
  obtain ⟨hreads, hroots⟩ := publish_spec hz ho hi hfin h
  exact ⟨plans, hpla, hreads, hroots, hi.separate⟩

lemma transaction_rejected (h : transaction codec refs sufs store edits = (store', .error (.prepare operation source))) :
    store' = store := by
  unfold transaction at h
  split_ifs at h
  · cases h
  split at h
  · cases h
    rfl
  · exact absurd h publishGroups_error

/-- An accepted batch turns the view of the store into the view with exactly its edits applied,
each planned in the view before; every stack it touches gets one newer table. A batch that is
rejected in preparation changes nothing. -/
theorem transaction_refines (codec : Codec) (hz : codec.zlib.Inverts) (refs : References)
    (suffixes : Path → List UInt32) (store store' : Stacks) (before : StoreView) (edits : List RefEdit)
    (result : Except TransactionError (List RefEditOutcome)) (hread : ReadsAs codec refs store before)
    (h : transaction codec refs suffixes store edits = (store', result)) :
    (∀ outcomes, result = .ok outcomes → ∃ plans, List.Forall₂ (Planned refs before) edits plans ∧
      ReadsAs codec refs store' (StoreView.applyAll refs before (edits.zip plans)) ∧
      ∀ root, store' root = store root ∨
        (root ∈ directories refs ∧ Extends codec refs (store root) (store' root))) ∧
    ∀ operation source, result = .error (.prepare operation source) → store' = store := by
  constructor
  · rintro outcomes rfl
    obtain ⟨plans, hpla, hreads, hroots, -⟩ := transaction_eq_ok hz hread h
    exact ⟨plans, hpla, hreads, hroots⟩
  · rintro operation source rfl
    exact transaction_rejected h

def viewOf (codec : Codec) (refs : References) (store : Stacks) : StoreView := fun root =>
  match Snapshot.read codec (store root) refs.format refs.limits with
  | .ok s => s.table.view
  | .error _ => ⟨fun _ => none, fun _ _ => none, 0⟩

lemma readsAs_viewOf (h : ∀ root ∈ directories refs,
    (read codec (store root) refs.format refs.limits).isOk) :
    ReadsAs codec refs store (viewOf codec refs store) := by
  intro root hroot
  obtain ⟨s, hread⟩ := exists_ok (h root hroot)
  exact ⟨s, hread, by rw [viewOf, hread]⟩

lemma viewOf_eq {root : Path} {table : Table}
    (h : (read codec (store root) refs.format refs.limits).map Snapshot.table = .ok table) :
    viewOf codec refs store root = table.view := by
  obtain ⟨s, hs, rfl⟩ := map_ok.mp h
  rw [viewOf, hs]

def sampleMove : RefEdit :=
  ⟨.head, .follow, some (.direct (sampleId 9)), .value (.direct (sampleId 7)),
    .append ⟨ascii "A", ascii "a@b", 1700000001, -210⟩ (ascii "move")⟩

def moveStream : Bytes × Bytes :=
  let entry := [0, 255, 255, 255, 255, 255, 255, 255, 252] ++ List.replicate 20 7 ++ List.replicate 20 9 ++
    [1, 65, 3, 97, 64, 98, 133, 169, 206, 225, 1, 254, 182, 5] ++ ascii "move" ++ [10]
  ([0, 105] ++ ascii "HEAD" ++ entry ++ [0, 128, 65] ++ ascii "refs/heads/main" ++ entry ++ [0, 0, 4, 0, 0, 78, 0, 2],
   [120, 156, 99, 200, 244, 112, 117, 116, 97, 248, 15, 1, 127, 216, 177, 0, 78, 44, 128, 209, 145, 57, 209, 33,
    169, 117, 229, 185, 135, 140, 255, 182, 177, 230, 230, 151, 165, 114, 49, 52, 56, 22, 165, 166, 21, 235, 103,
    164, 38, 166, 20, 235, 231, 38, 102, 230, 81, 197, 84, 6, 22, 6, 6, 63, 6, 38, 0, 179, 130, 41, 243])

def moveCodec : Codec := ⟨recordedZlib [sampleStream, moveStream], crc32⟩

lemma moveCodec_inverts : moveCodec.zlib.Inverts := by
  refine recordedZlib_inverts ⟨?_, ?_⟩
  · decide +kernel
  · decide +kernel

def sampleRefs : References := ⟨.sha1, sampleStackLimits, ascii "r", ascii "r"⟩

def sampleStore : Stacks := fun _ => stackOf moveCodec Limits.default [sampleTable]

/-- The move is accepted; both logs get an entry and the branch its new value. -/
theorem transaction_refines_sampleMove :
    ∃ store' outcomes,
      transaction moveCodec sampleRefs (fun _ => [5]) sampleStore [sampleMove] = (store', .ok outcomes) ∧
      ReadsAs moveCodec sampleRefs sampleStore (viewOf moveCodec sampleRefs sampleStore) ∧
      ∃ plans, List.Forall₂ (Planned sampleRefs (viewOf moveCodec sampleRefs sampleStore)) [sampleMove] plans ∧
        ReadsAs moveCodec sampleRefs store' (StoreView.applyAll sampleRefs
          (viewOf moveCodec sampleRefs sampleStore) ([sampleMove].zip plans)) ∧
        ∀ root, store' root = sampleStore root ∨ (root ∈ directories sampleRefs ∧
          Extends moveCodec sampleRefs (sampleStore root) (store' root)) := by
  have hread : ReadsAs moveCodec sampleRefs sampleStore (viewOf moveCodec sampleRefs sampleStore) := by
    apply readsAs_viewOf
    decide +kernel
  obtain ⟨store', outcomes, h⟩ := exists_snd_ok
    (show (transaction moveCodec sampleRefs (fun _ => [5]) sampleStore [sampleMove]).2.isOk by decide +kernel)
  obtain ⟨hacc, -⟩ := transaction_refines moveCodec moveCodec_inverts _ _ _ _ _ _ _ hread h
  exact ⟨store', outcomes, h, hread, hacc outcomes rfl⟩

end Publish

section Runs

/-- Transactions accepted one after another, each a batch with the suffixes its tables are named
with. -/
inductive Accepted (codec : Codec) (refs : References) :
    Stacks → List ((Path → List UInt32) × List RefEdit) → Stacks → Prop
  | nil (store : Stacks) : Accepted codec refs store [] store
  | cons {store next store' : Stacks} {sufs : Path → List UInt32} {edits : List RefEdit}
      {rest : List ((Path → List UInt32) × List RefEdit)} {outs : List RefEditOutcome}
      (first : transaction codec refs sufs store edits = (next, .ok outs))
      (run : Accepted codec refs next rest store') :
      Accepted codec refs store ((sufs, edits) :: rest) store'

/-- No run of accepted transactions puts a live name below another. -/
theorem accepted_prefixFree (codec : Codec) (hz : codec.zlib.Inverts) (refs : References)
    (store store' : Stacks)
    (before : StoreView) (transactions : List ((Path → List UInt32) × List RefEdit))
    (hread : ReadsAs codec refs store before)
    (hfree : before.PrefixFree refs) (hrun : Accepted codec refs store transactions store') :
    ∃ after, ReadsAs codec refs store' after ∧ StoreView.PrefixFree refs after := by
  induction hrun generalizing before with
  | nil => exact ⟨before, hread, hfree⟩
  | cons first _ ih =>
    obtain ⟨plans, -, hreads, -, hsep⟩ := transaction_eq_ok hz hread first
    exact ih _ hreads (hsep hfree)

lemma accepted_of_isOk {codec : Codec} {refs : References} {store store' : Stacks}
    {sufs : Path → List UInt32}
    {edits : List RefEdit} {rest : List ((Path → List UInt32) × List RefEdit)}
    (hok : (transaction codec refs sufs store edits).2.isOk)
    (hrest : Accepted codec refs (transaction codec refs sufs store edits).1 rest store') :
    Accepted codec refs store ((sufs, edits) :: rest) store' := by
  obtain ⟨next, outs, h⟩ := exists_snd_ok hok
  rw [h] at hrest
  exact .cons h hrest

def sampleBatch : List RefEdit :=
  [⟨.head, .stored, none, .exists, .preserve⟩,
    ⟨⟨ascii "refs/tags/v", by decide +kernel⟩, .stored, some (.direct (sampleId 9)), .absent, .preserve⟩]

lemma directory_sampleRefs (name : RefName) : directory sampleRefs name = ascii "r/reftable" := by
  unfold directory
  split_ifs <;> rfl

lemma sampleStore_prefixFree : (viewOf moveCodec sampleRefs sampleStore).PrefixFree sampleRefs := by
  have hview : viewOf moveCodec sampleRefs sampleStore (ascii "r/reftable") = sampleTable.view := by
    apply viewOf_eq
    decide +kernel
  have hlive : ∀ name, (viewOf moveCodec sampleRefs sampleStore).target sampleRefs name ≠ none →
      name = .head ∨ name = sampleBranch := by
    intro name hname
    unfold StoreView.target at hname
    rw [directory_sampleRefs, hview] at hname
    by_contra hoth
    rw [not_or] at hoth
    have hhead : ¬ RefName.head.bytes = name.bytes := fun heq => hoth.1 (RefName.ext heq.symm)
    have hbra : ¬ sampleBranch.bytes = name.bytes := fun heq => hoth.2 (RefName.ext heq.symm)
    apply hname
    simp [Table.view, sampleTable, RecordName.ofRefName, hhead, hbra]
  intro a b ha hb
  rcases hlive a ha with rfl | rfl <;> rcases hlive b hb with rfl | rfl <;> unfold Ancestor <;> decide +kernel

/-- A branch moves, then a batch deletes one name and creates another. -/
theorem accepted_prefixFree_sampleBatch :
    ∃ store', Accepted moveCodec sampleRefs sampleStore
        [(fun _ => [5], [sampleMove]), (fun _ => [6], sampleBatch)] store' ∧
      ∃ after, ReadsAs moveCodec sampleRefs store' after ∧ StoreView.PrefixFree sampleRefs after := by
  have hread : ReadsAs moveCodec sampleRefs sampleStore (viewOf moveCodec sampleRefs sampleStore) := by
    apply readsAs_viewOf
    decide +kernel
  have hrun := @accepted_of_isOk moveCodec sampleRefs sampleStore _ (fun _ => [5]) [sampleMove] _
    (by decide +kernel) (@accepted_of_isOk moveCodec sampleRefs _ _ (fun _ => [6]) sampleBatch []
      (by decide +kernel) (.nil _))
  exact ⟨_, hrun, accepted_prefixFree moveCodec moveCodec_inverts _ _ _ _ _ hread
    sampleStore_prefixFree hrun⟩

end Runs

end Girt.Proofs
