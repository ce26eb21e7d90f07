import Girt.Proofs.ReftableView
import Girt.Refs.Reftable.Expire

/-!
# Expiry stops between its steps

A stack rewritten as one table is read back as that table, and until its list is replaced it is
read as before.
-/

namespace Girt.Proofs

open ByteLib Girt.Refs Girt.Refs.Reftable List

variable {codec : Codec} {fmt : ObjectFormat} {lim : StackLimits} {dir : StackDir} {s : Snapshot}
  {files : List Bytes} {merge : Merge} {keys : Finset LogKey} {name bytes : Bytes}
  {expiry : Expiry}

/-- The view without the log entries under `keys`. -/
def dropLogs (keys : Finset LogKey) (view : StackView) : StackView :=
  { view with logs := fun name index => if entryKey name index ∈ keys then none else view.logs name index }

lemma ReadFrom.view_without (h : ReadFrom codec fmt lim dir s files merge) (keys : Finset LogKey) :
    (s.table.without keys).view = dropLogs keys s.table.view := by
  rw [h.view, h.snapshot]
  apply StackView.ext
  · funext name
    change (merge.references.values.filter _).find? _ = _
    rw [find?_filter]
    apply merge.references_keyed.find_values
    intro r
    simp only [RefRecord.key]
    grind
  · funext name index
    have hfind : (merge.logs.values.filter (fun r => r.value.isSome && r.key ∉ keys)).find?
        (fun r => r.name.bytes = name && r.updateIndex = index) =
          (merge.logs.get (entryKey name index)).filter (fun r => r.value.isSome && r.key ∉ keys) := by
      rw [find?_filter]
      apply merge.logs_keyed.find_values
      intro r
      have hkey : r.key = entryKey name index ↔ r.name.bytes = name ∧ r.updateIndex = index := entryKey_inj
      simp only [hkey]
      grind
    refine (congrArg (Option.bind · LogRecord.value) hfind).trans ?_
    simp only [dropLogs, mergedView]
    cases hget : merge.logs.get (entryKey name index) with
    | none => simp
    | some r =>
      have hkey : r.key = entryKey name index := merge.logs_keyed.get_key hget
      cases hval : r.value <;> by_cases hmem : entryKey name index ∈ keys <;> simp [Option.filter,
        hval, hkey, hmem]
  · rfl

/-- A list of one table with live records of the old stack is read back as that table. -/
lemma read_without (hz : codec.zlib.Inverts) (h : ReadFrom codec fmt lim dir s files merge)
    (henc : (s.table.without keys).encode codec.zlib codec.crc32 lim.records = .ok bytes)
    (hvd : validTableName name)
    (hlim : 0 < lim.tables.toNat) (hlen : (joinLines [name]).length ≤ lim.listBytes.toNat)
    {file : Bytes → Option Bytes} (hfile : file name = some bytes) :
    ∃ s', Snapshot.read codec ⟨some (joinLines [name]), file⟩ fmt lim = .ok s' ∧
      s'.table.view = dropLogs keys s.table.view := by
  obtain ⟨s', hs', htable⟩ := read_single hz (by rw [h.snapshot])
    (by rw [h.snapshot]; exact merge.references_keyed.sorted_values _)
    (by rw [h.snapshot]; exact merge.logs_keyed.sorted_values _) henc hvd hlim hlen hfile
  exact ⟨s', hs', by rw [htable]; exact h.view_without keys⟩

lemma read_kept (hread : Snapshot.read codec dir fmt lim = .ok s) (hfree : dir.file name = none) :
    Snapshot.read codec { dir with file := fun other => if other = name then some bytes else dir.file other } fmt lim =
      .ok s := by
  obtain ⟨list, files, merge, hlist, hnames, hfil, hmerge, hs⟩ := read_eq_ok hread
  simp only [Snapshot.read, bind_ok]
  refine ⟨list, hlist, s.names, hnames, files, mapM_eq_ok_congr hfil ?_, merge, hmerge, by rw [← hs]; rfl⟩
  intro other hoth b hb
  have hne : other ≠ name := fun heq => not_mem_names hfil hfree (heq ▸ hoth)
  simpa [openTable, hne] using hb

lemma prepareExpiry_eq_ok (hread : Snapshot.read codec dir fmt lim = .ok s)
    (h : prepareExpiry codec fmt lim dir expiry = .ok (name, bytes)) :
    s.names = expiry.expected.names ∧ dir.file name = none ∧ validTableName name ∧
      (s.table.without expiry.keys).encode codec.zlib codec.crc32 lim.records = .ok bytes ∧
      s.table.live.logs.length - (s.table.without expiry.keys).logs.length = expiry.keys.card := by
  simp only [prepareExpiry, bind_ok, reject_ok, wrapError_eq_ok, hread, Except.ok.injEq] at h
  obtain ⟨_, rfl, -, hsame, -, hcount, _, henc, _, hname, -, -, h⟩ := h
  cases h
  obtain ⟨hfree, hvd⟩ := createTableFile_eq_ok hname
  exact ⟨not_not.mp (not_or.mp hsame).1, hfree, hvd, henc, not_not.mp hcount⟩

/-- A rewrite that drops as many entries as were selected drops each of them. -/
lemma ReadFrom.selected (h : ReadFrom codec fmt lim dir s files merge)
    (hcount : s.table.live.logs.length - (s.table.without keys).logs.length = keys.card)
    {name : Bytes} {index : UInt64} (hmem : entryKey name index ∈ keys) :
    s.table.view.logs name index ≠ none := by
  let dropped := s.table.live.logs.filter (fun r => r.key ∈ keys)
  have hlength : s.table.live.logs.length = dropped.length + (s.table.without keys).logs.length := by
    rw [length_eq_length_filter_add (fun r => decide (r.key ∈ keys))]
    simp [dropped, Table.live, Table.without, filter_filter, Bool.and_comm]
  have hnodup : (dropped.map LogRecord.key).Nodup := by
    have hsorted := merge.logs.sorted
    rw [← merge.logs_keyed.values_map, OrderedMap.Sorted, pairwise_map] at hsorted
    rw [nodup_iff_pairwise_ne, pairwise_map]
    refine (hsorted.imp (·.ne)).sublist (filter_sublist.trans ?_)
    rw [h.snapshot]
    exact filter_sublist
  have hall : (dropped.map LogRecord.key).toFinset = keys := by
    apply Finset.eq_of_subset_of_card_le
    · intro key hkey
      obtain ⟨r, hr, rfl⟩ := mem_map.mp (mem_toFinset.mp hkey)
      simpa using (mem_filter.mp hr).2
    · rw [toFinset_card_of_nodup hnodup, length_map]
      omega
  rw [← hall, mem_toFinset] at hmem
  obtain ⟨r, hr, hkey⟩ := mem_map.mp hmem
  obtain ⟨hlog, hlive⟩ := mem_filter.mp (mem_filter.mp hr).1
  obtain ⟨hname, hindex⟩ := entryKey_inj.mp hkey
  obtain ⟨value, hvalue⟩ := Option.isSome_iff_exists.mp hlive
  simp [h.logs_eq_some.mpr ⟨r, hlog, hname, hindex, hvalue⟩]

/-- The selected entries were there and are gone, and everything else is as before. -/
def Dropped (keys : Finset LogKey) (s s' : Snapshot) : Prop :=
  s'.table.view = dropLogs keys s.table.view ∧
    ∀ name index, entryKey name index ∈ keys → s.table.view.logs name index ≠ none

/-- What a reader of the stack sees after an expiry, by what the expiry reports. -/
def Expired (keys : Finset LogKey) (s s' : Snapshot) : Except ExpireStackError ExpiredStack → Prop
  | .ok _ | .error (.failed _ _ true) => Dropped keys s s'
  | .error (.failed _ true false) => s' = s ∨ Dropped keys s s'
  | .error .changed | .error (.failed _ false false) => s' = s

/-- Wherever an expiry stops, the stack can be read, with all of the selected entries or none of
them gone. The report says which, unless publication itself failed. -/
theorem expireLogs_atomic (hz : codec.zlib.Inverts) (hlim : 0 < lim.tables.toNat)
    (hread : Snapshot.read codec dir fmt lim = .ok s) (expiry : Expiry) :
    ∃ s', Snapshot.read codec (expireLogs codec fmt lim dir expiry).1 fmt lim = .ok s' ∧
      Expired expiry.keys s s' (expireLogs codec fmt lim dir expiry).2 := by
  unfold expireLogs
  split
  · exact ⟨s, hread, rfl⟩
  · exact ⟨s, hread, rfl⟩
  rename_i name bytes hprep
  obtain ⟨hnames, hfree, hvd, henc, hcount⟩ := prepareExpiry_eq_ok hread hprep
  obtain ⟨files, merge, hfrom⟩ := readFrom hread
  have hkept := @read_kept codec fmt lim dir s name bytes hread hfree
  have hold : name ∉ expiry.expected.names := hnames ▸ not_mem_names hfrom.opened hfree
  dsimp only
  split_ifs with hkeep hlen
  · exact ⟨s, hkept, rfl⟩
  · exact ⟨s, hkept, rfl⟩
  have hnew : ∀ file : Bytes → Option Bytes, file name = some bytes → ∃ s',
      Snapshot.read codec ⟨some (joinLines [name]), file⟩ fmt lim = .ok s' ∧ Dropped expiry.keys s s' := by
    intro file hfile
    obtain ⟨s', hs', hview⟩ := read_without hz hfrom henc hvd hlim (not_lt.mp hlen) hfile
    exact ⟨s', hs', hview, fun _ _ => hfrom.selected hcount⟩
  obtain ⟨s', hs', hdrop⟩ := hnew (fun other => if other = name then some bytes else dir.file other)
    (if_pos rfl)
  split
  · split_ifs
    · exact ⟨s', hs', Or.inr hdrop⟩
    · exact ⟨s, hkept, Or.inl rfl⟩
  · exact ⟨s', hs', Or.inr hdrop⟩
  · exact hnew _ (by simp [hold])
  · exact hnew _ (by simp [hold])

def sampleFull : StackDir := stackOf sampleCodec Limits.default [sampleTable]

def sampleExpiry : Expiry where
  expected := ((Snapshot.read sampleCodec sampleFull .sha1 sampleStackLimits).toOption).getD ⟨sampleTable, [], 0, 0, 0⟩
  keys := {sampleLog.key}
  suffixes := [7]
  stop := none
  removed _ := true

def sampleExpired : StackDir × Except ExpireStackError ExpiredStack :=
  expireLogs sampleCodec .sha1 sampleStackLimits sampleFull sampleExpiry

/-- The only entry expires. -/
theorem expireLogs_atomic_sampleExpiry :
    sampleExpired.2.isOk ∧
      ∃ s s', Snapshot.read sampleCodec sampleFull .sha1 sampleStackLimits = .ok s ∧
      Snapshot.read sampleCodec sampleExpired.1 .sha1 sampleStackLimits = .ok s' ∧
      Expired sampleExpiry.keys s s' sampleExpired.2 := by
  obtain ⟨s, hread⟩ := exists_ok (x := Snapshot.read sampleCodec sampleFull .sha1 sampleStackLimits)
    (by decide +kernel)
  obtain ⟨s', hafter⟩ := expireLogs_atomic sampleCodec_inverts (by decide) hread sampleExpiry
  exact ⟨by decide +kernel, s, s', hread, hafter⟩

end Girt.Proofs
