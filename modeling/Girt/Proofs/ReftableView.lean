import Girt.Proofs.ReftableBudget
import Girt.Proofs.ReftableStack
import Girt.Refs.Reftable.View

/-!
# Views of merged stacks

The merged records of a stack as a view, and the view of a stack to which a table was added.
-/

namespace Girt.Proofs

open ByteLib Girt.Refs Girt.Refs.Reftable

variable {codec : Codec} {fmt : ObjectFormat} {lim : StackLimits}

def entryKey (name : Bytes) (index : UInt64) : LogKey := toLex (name, OrderDual.toDual index)

lemma entryKey_inj {name name' : Bytes} {index index' : UInt64} :
    entryKey name index = entryKey name' index' ↔ name = name' ∧ index = index' := by
  simp [entryKey]

def mergedView (references : OrdMap Bytes RefRecord) (logs : OrdMap LogKey LogRecord) (last : UInt64) :
    StackView where
  refs name := (references.get name).filter (fun r => r.target.isSome)
  logs name index := (logs.get (entryKey name index)).bind LogRecord.value
  last := last

lemma snapshot_view (merge : Merge) (fmt : ObjectFormat) (lim : StackLimits) (names : List Bytes) :
    (merge.snapshot fmt lim names).table.view =
      mergedView merge.references merge.logs merge.max := by
  have hrefs : ∀ name, merge.references.values.find? (fun r => r.name.bytes = name && r.target.isSome) =
      (merge.references.get name).filter (·.target.isSome) := by
    intro name
    apply merge.references_keyed.find_values
    simp [RefRecord.key]
  have hlogs : ∀ name index,
      merge.logs.values.find? (fun r => r.name.bytes = name && r.updateIndex = index) =
        (merge.logs.get (entryKey name index)).filter (fun _ => true) := by
    intro name index
    apply merge.logs_keyed.find_values
    intro r
    have hkey : r.key = entryKey name index ↔ r.name.bytes = name ∧ r.updateIndex = index := entryKey_inj
    simp [hkey]
  apply StackView.ext
  · funext name
    exact hrefs name
  · funext name index
    have hkeeps : ∀ o : Option LogRecord, o.filter (fun _ => true) = o := by
      intro o
      cases o <;> rfl
    have hlog := hlogs name index
    rw [hkeeps] at hlog
    exact congrArg (Option.bind · LogRecord.value) hlog
  · rfl

/-- What holds of every merge of decoded tables: the budget keeps its shape, and no record is
newer than the latest update. -/
structure MergeBounded (lim : StackLimits) (merge : Merge) : Prop where
  shape : SameShape lim.records merge.remaining
  refs : ∀ name r, merge.references.get name = some r → merge.tables ≠ 0 ∧ r.updateIndex ≤ merge.max
  logs : ∀ key r, merge.logs.get key = some r → merge.tables ≠ 0 ∧ r.updateIndex ≤ merge.max

lemma mergeBounded_empty (lim : StackLimits) : MergeBounded lim (Merge.empty lim) :=
  ⟨⟨rfl, rfl⟩, by simp [Merge.empty], by simp [Merge.empty]⟩

lemma mergeTable_bounded {s s' : Merge} {bs : Bytes} (hs : MergeBounded lim s)
    (h : mergeTable codec fmt s bs = .ok s') : MergeBounded lim s' := by
  obtain ⟨table, recs, dec, -, hdec, -, hord, rfl⟩ := mergeTable_eq_ok h
  have htab := decodeUsage_ordered hdec
  have hmax : s.tables ≠ 0 → s.max ≤ table.maxUpdateIndex := fun hne => (hord hne).le.trans htab.range
  refine ⟨⟨hs.shape.blockBytes, hs.shape.stringBytes⟩, ?_, ?_⟩
  · intro name r hget
    refine ⟨Nat.succ_ne_zero _, ?_⟩
    rcases OrdMap.mem_or_of_get_insertAll hget with hmem | hold
    · obtain ⟨r', hr', heq⟩ := List.mem_map.mp hmem
      cases heq
      exact htab.refMax _ hr'
    · exact (hs.refs name r hold).2.trans (hmax (hs.refs name r hold).1)
  · intro key r hget
    refine ⟨Nat.succ_ne_zero _, ?_⟩
    rcases OrdMap.mem_or_of_get_insertAll hget with hmem | hold
    · obtain ⟨r', hr', heq⟩ := List.mem_map.mp hmem
      cases heq
      exact htab.logMax _ hr'
    · exact (hs.logs key r hold).2.trans (hmax (hs.logs key r hold).1)

/-- A readable stack and the merge it was read from. -/
structure ReadFrom (codec : Codec) (fmt : ObjectFormat) (lim : StackLimits) (dir : StackDir) (s : Snapshot)
    (files : List Bytes) (merge : Merge) : Prop where
  listed : Listed lim s.names
  opened : s.names.mapM (openTable dir) = .ok files
  merged : files.foldlM (mergeTable codec fmt) (Merge.empty lim) = .ok merge
  snapshot : s = merge.snapshot fmt lim s.names
  bounded : MergeBounded lim merge

lemma readFrom {dir : StackDir} {s : Snapshot} (h : Snapshot.read codec dir fmt lim = .ok s) :
    ∃ files merge, ReadFrom codec fmt lim dir s files merge := by
  obtain ⟨bs, files, merge, -, hnames, hfil, hmerge, hs⟩ := read_eq_ok h
  refine ⟨files, merge, listNames_listed hnames, hfil, hmerge, hs, ?_⟩
  exact foldlM_induct (fun s bs s' _ hb hstep => mergeTable_bounded hb hstep)
    (mergeBounded_empty lim) hmerge

namespace ReadFrom

variable {codec : Codec} {fmt : ObjectFormat} {lim : StackLimits} {dir : StackDir} {s : Snapshot}
  {files : List Bytes} {merge : Merge}

variable (h : ReadFrom codec fmt lim dir s files merge)
include h

lemma view : s.table.view = mergedView merge.references merge.logs merge.max := by
  rw [h.snapshot]
  exact snapshot_view _ _ _ _

lemma mem_references {r : RefRecord} :
    r ∈ s.table.references ↔ merge.references.get r.key = some r := by
  rw [h.snapshot]
  exact merge.references_keyed.mem_values

lemma mem_logs {r : LogRecord} : r ∈ s.table.logs ↔ merge.logs.get r.key = some r := by
  rw [h.snapshot]
  exact merge.logs_keyed.mem_values

lemma refs_eq_some {name : Bytes} {r : RefRecord} :
    s.table.view.refs name = some r ↔
      r ∈ s.table.references ∧ r.name.bytes = name ∧ r.target.isSome := by
  rw [h.view, h.mem_references, mergedView, Option.filter_eq_some_iff]
  constructor
  · rintro ⟨hget, hlive⟩
    have hkey : r.name.bytes = name := merge.references_keyed.get_key hget
    subst hkey
    exact ⟨hget, rfl, hlive⟩
  · rintro ⟨hget, rfl, hlive⟩
    exact ⟨hget, hlive⟩

lemma logs_eq_some {name : Bytes} {index : UInt64}
    {value : LogValue} : s.table.view.logs name index = some value ↔
      ∃ r ∈ s.table.logs, r.name.bytes = name ∧ r.updateIndex = index ∧ r.value = some value := by
  rw [h.view]
  simp only [mergedView, Option.bind_eq_some_iff]
  constructor
  · rintro ⟨r, hget, hval⟩
    have hkey := merge.logs_keyed.get_key hget
    obtain ⟨hname, hidx⟩ := entryKey_inj.mp hkey
    refine ⟨r, h.mem_logs.mpr ?_, hname, hidx, hval⟩
    rw [hkey]
    exact hget
  · rintro ⟨r, hr, rfl, rfl, hval⟩
    exact ⟨r, h.mem_logs.mp hr, hval⟩

end ReadFrom

/-- A published table whose usage fits the rest of the budget is read back on top of the stack. -/
theorem read_publish {dir dir' : StackDir}
    {s : Snapshot} {files : List Bytes} {merge : Merge} {table : Table} {bs : Bytes} {sufs : List UInt32}
    {recs dec : Nat} (hread : ReadFrom codec fmt lim dir s files merge)
    (hpub : publish lim dir s.names table bs sufs = .ok dir')
    (hdec : Table.decodeUsage codec.zlib codec.crc32 bs lim.records = .ok (table, recs, dec))
    (hform : table.format = fmt) (hord : merge.tables ≠ 0 → merge.max < table.minUpdateIndex)
    (hbs : bs.length ≤ merge.remaining.bytes.toNat) (hrecs : recs ≤ merge.remaining.records.toNat)
    (hcost : dec ≤ merge.remaining.decodedBytes.toNat) :
    ∃ name, dir'.file name = some bs ∧ Snapshot.read codec dir' fmt lim =
      .ok (((merge.add table).charge bs.length recs dec).snapshot fmt lim (s.names ++ [name])) := by
  obtain ⟨name, hfree, hvd, hnum, hlist, rfl⟩ := publish_eq_ok hpub
  have hfr : name ∉ s.names := not_mem_names hread.opened hfree
  have hope : (s.names ++ [name]).mapM (openTable ⟨some (joinLines (s.names ++ [name])),
      fun other => if other = name then some bs else dir.file other⟩) = .ok (files ++ [bs]) := by
    rw [List.mapM_append, bind_ok]
    refine ⟨files, mapM_eq_ok_congr hread.opened ?_, ?_⟩
    · intro other hoth b hb
      have hne : other ≠ name := fun heq => hfr (heq ▸ hoth)
      simpa [openTable, hne] using hb
    · simp [openTable, bind, Except.bind, pure, Except.pure]
  have hstep : mergeTable codec fmt merge bs =
      .ok ((merge.add table).charge bs.length recs dec) := by
    simp only [mergeTable, bind_ok, reject_ok, wrapError_eq_ok]
    refine ⟨(), hbs.not_gt, _, decodeUsage_relimit hread.bounded.shape hdec hbs hrecs hcost,
      (), not_not.mpr hform, (), ?_, rfl⟩
    rintro ⟨hne, hle⟩
    exact absurd hle (not_le.mpr (hord hne))
  have hmer : (files ++ [bs]).foldlM (mergeTable codec fmt) (Merge.empty lim) =
      .ok ((merge.add table).charge bs.length recs dec) := by
    apply foldlM_append_eq_ok hread.merged
    rw [List.foldlM_cons, hstep]
    rfl
  exact ⟨name, if_pos rfl, read_joinLines (by simp) (hread.listed.append hvd hfr hnum) rfl hlist hope
    hmer⟩

end Girt.Proofs
