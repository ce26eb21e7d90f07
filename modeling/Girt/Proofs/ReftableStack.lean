import Girt.Proofs.ReftableCodec
import Girt.Refs.Reftable.Stack

/-!
# Publishing and compacting a stack

A published list is read back as the tables it names, and compaction keeps every live record.
-/

namespace Girt.Proofs

open ByteLib Girt.Refs Girt.Refs.Reftable List
open Merge (empty)

variable {codec : Codec} {dir : StackDir} {fmt : ObjectFormat} {lim : StackLimits} {bytes : Bytes}
  {names : List Bytes} {table : Table}

section List

lemma joinLines_dropLast (names : List Bytes) (hne : names ≠ []) :
    (joinLines names).dropLast = List.intercalate [10] names ∧
      (joinLines names).getLast? = some 10 := by
  induction names with
  | nil => exact absurd rfl hne
  | cons name names ih =>
    cases names with
    | nil => simp [joinLines, intercalate]
    | cons next rest =>
      obtain ⟨hdrop, hlast⟩ := ih (by simp)
      have hcons : joinLines (name :: next :: rest) = (name ++ [10]) ++ joinLines (next :: rest) := rfl
      have hnil : joinLines (next :: rest) ≠ [] := by
        intro h
        simp [h] at hlast
      rw [hcons, dropLast_append_of_ne_nil hnil, getLast?_append_of_ne_nil _ hnil, hdrop, hlast]
      simp [intercalate]

lemma foldlM_listStep {lim : StackLimits} {done names : List Bytes}
    (hvd : ∀ name ∈ names, validTableName name) (hnd : (done ++ names).Nodup)
    (hnum : (done ++ names).length ≤ lim.tables.toNat) :
    names.foldlM (listStep lim) done = .ok (done ++ names) := by
  induction names generalizing done with
  | nil => simp [pure, Except.pure]
  | cons name names ih =>
    have hstep : listStep lim done name = .ok (done ++ [name]) := by
      have hfr : name ∉ done := by
        intro hmem
        exact (nodup_append.mp hnd).2.2 _ hmem _ (.head _) rfl
      have hlen : done.length ≠ lim.tables.toNat := by
        simp only [length_append, length_cons] at hnum
        omega
      simp [listStep, reject, hfr, hlen, hvd name mem_cons_self, bind, Except.bind, pure,
        Except.pure]
    rw [foldlM_cons, hstep]
    have hrest := @ih (done ++ [name]) (fun n hn => hvd n (.tail _ hn))
      (by simpa using hnd) (by simpa using hnum)
    simpa [bind, Except.bind] using hrest

lemma newline_not_mem {name : Bytes} (h : validTableName name) : 10 ∉ name := by
  intro hmem
  simp only [validTableName, Bool.not_eq_true', Bool.or_eq_false_iff, Bool.not_eq_false'] at h
  have hall := all_eq_true.mp h.1.1.2 10 hmem
  simp at hall

/-- A list written from valid distinct names is read back as those names. -/
theorem listNames_joinLines {lim : StackLimits} {names : List Bytes} (hne : names ≠ [])
    (hvd : ∀ name ∈ names, validTableName name) (hnd : names.Nodup)
    (hnum : names.length ≤ lim.tables.toNat) : listNames lim (joinLines names) = .ok names := by
  obtain ⟨hdrop, hlast⟩ := joinLines_dropLast names hne
  have hnil : joinLines names ≠ [] := by
    intro h
    simp [h] at hlast
  have hcut : (joinLines names).dropLast.splitOn 10 = names := by
    rw [hdrop]
    exact splitOn_intercalate 10 (fun l hl => newline_not_mem (hvd l hl)) hne
  unfold listNames
  rw [if_neg hnil, if_neg (by simp [hlast]), hcut]
  have hfold := @foldlM_listStep lim [] names hvd hnd hnum
  rwa [nil_append] at hfold

def isHexByte (b : UInt8) : Bool := (48 ≤ b && b ≤ 57) || (97 ≤ b && b ≤ 102)

lemma hexDigit_isHex {n : Nat} (h : n < 16) : isHexByte (hexDigit n) := by
  have hall : ∀ k : Fin 16, isHexByte (hexDigit k) := by decide
  exact hall ⟨n, h⟩

lemma hexDigits_isHex (n : Nat) : ∀ b ∈ hexDigits n, isHexByte b := by
  fun_induction hexDigits n with
  | case1 n h =>
    intro b hb
    rw [mem_singleton.mp hb]
    exact hexDigit_isHex h
  | case2 n h ih =>
    intro b hb
    rcases mem_append.mp hb with hb | hb
    · exact ih b hb
    · rw [mem_singleton.mp hb]
      exact hexDigit_isHex (Nat.mod_lt _ (by decide))

lemma hexPadded_isHex (width n : Nat) : ∀ b ∈ hexPadded width n, isHexByte b := by
  intro b hb
  rcases mem_append.mp hb with hb | hb
  · rw [eq_of_mem_replicate hb]
    decide
  · exact hexDigits_isHex n b hb

def isNameByte (b : UInt8) : Bool :=
  (48 ≤ b && b ≤ 57) || (65 ≤ b && b ≤ 90) || (97 ≤ b && b ≤ 122) || b == 45 || b == 95 || b == 46

lemma isNameByte_of_isHex {b : UInt8} (h : isHexByte b) : isNameByte b := by
  have hall : ∀ k : Fin 256, isHexByte (UInt8.ofFin k) → isNameByte (UInt8.ofFin k) := by
    decide +kernel
  exact hall b.toFin h

lemma tableName_valid (lo hi : UInt64) (suf : UInt32) : validTableName (tableName lo hi suf) := by
  have hhex : ∀ width n, (hexPadded width n).all isNameByte := by
    intro width n
    rw [all_eq_true]
    intro b hb
    exact isNameByte_of_isHex (hexPadded_isHex width n b hb)
  have hname : (tableName lo hi suf).all isNameByte := by
    have h1 : (ascii "0x").all isNameByte := by decide
    have h2 : (ascii "-0x").all isNameByte := by decide
    have h3 : (ascii "-").all isNameByte := by decide
    have h4 : (ascii ".ref").all isNameByte := by decide
    simp [tableName, hhex, h1, h2, h3, h4]
  have hst : ∃ rest, tableName lo hi suf = 48 :: rest := by
    exact ⟨_, rfl⟩
  have hsuf : (ascii ".ref").isSuffixOf (tableName lo hi suf) := by
    rw [isSuffixOf_iff_suffix]
    exact suffix_append _ _
  obtain ⟨rest, hrest⟩ := hst
  have hemp : (tableName lo hi suf).isEmpty = false := by rw [hrest]; rfl
  have hdot : (ascii ".").isPrefixOf (tableName lo hi suf) = false := by rw [hrest]; rfl
  unfold validTableName
  rw [hemp, hdot, hsuf]
  have hall := hname
  unfold isNameByte at hall
  rw [hall]
  rfl

end List

lemma read_eq_ok {s : Snapshot} (h : Snapshot.read codec dir fmt lim = .ok s) :
    ∃ bytes files merge, readList dir lim = .ok bytes ∧ listNames lim bytes = .ok s.names ∧
      s.names.mapM (openTable dir) = .ok files ∧
      files.foldlM (mergeTable codec fmt) (empty lim) = .ok merge ∧
      s = merge.snapshot fmt lim s.names := by
  simp only [Snapshot.read, bind_ok] at h
  obtain ⟨bytes, hbs, names, hnames, files, hfil, merge, hmerge, h⟩ := h
  cases h
  exact ⟨bytes, files, merge, hbs, hnames, hfil, hmerge, rfl⟩

lemma mergeTable_eq_ok {s s' : Merge} (h : mergeTable codec fmt s bytes = .ok s') :
    ∃ table recs decoded, bytes.length ≤ s.remaining.bytes.toNat ∧
      Table.decodeUsage codec.zlib codec.crc32 bytes s.remaining = .ok (table, recs, decoded) ∧
      table.format = fmt ∧ (s.tables ≠ 0 → s.max < table.minUpdateIndex) ∧
      s' = (s.add table).charge bytes.length recs decoded := by
  simp only [mergeTable, bind_ok, reject_ok, wrapError_eq_ok, not_not, not_and, not_lt, not_le] at h
  obtain ⟨-, hlen, ⟨table, recs, decoded⟩, hdec, -, hform, -, hord, h⟩ := h
  cases h
  exact ⟨table, recs, decoded, hlen, hdec, hform, hord, rfl⟩

lemma listStep_eq_ok {names' : List Bytes} {line : Bytes}
    (h : listStep lim names line = .ok names') :
    names.length ≠ lim.tables.toNat ∧ validTableName line ∧ line ∉ names ∧
      names' = names ++ [line] := by
  simp only [listStep, bind_ok, reject_ok] at h
  obtain ⟨-, hnum, -, hvd, -, hfr, h⟩ := h
  cases h
  exact ⟨hnum, by simpa using hvd, hfr, rfl⟩

/-- Names read from a list are valid, distinct and within the limit. -/
structure Listed (limits : StackLimits) (names : List Bytes) : Prop where
  valid : ∀ name ∈ names, validTableName name = true
  nodup : names.Nodup
  count : names.length ≤ limits.tables.toNat

lemma Listed.append (h : Listed lim names) {name : Bytes}
    (hvd : validTableName name) (hfr : name ∉ names)
    (hnum : names.length < lim.tables.toNat) : Listed lim (names ++ [name]) := by
  constructor
  · intro other hoth
    rcases mem_append.mp hoth with hoth | hoth
    · exact h.valid other hoth
    · rwa [mem_singleton.mp hoth]
  · rw [nodup_append]
    refine ⟨h.nodup, nodup_singleton _, ?_⟩
    rintro other hoth _ hname rfl
    rw [mem_singleton.mp hname] at hoth
    exact hfr hoth
  · rw [length_append]
    exact hnum

lemma listNames_listed (h : listNames lim bytes = .ok names) : Listed lim names := by
  have hnil : Listed lim [] := ⟨by simp, nodup_nil, Nat.zero_le _⟩
  unfold listNames at h
  split_ifs at h
  · cases h
    exact hnil
  refine foldlM_induct ?_ hnil h
  intro names line names' _ hnames hstep
  obtain ⟨hnum, hvd, hfr, rfl⟩ := listStep_eq_ok hstep
  exact hnames.append hvd hfr (lt_of_le_of_ne hnames.count hnum)

lemma createTableFile_eq_ok {sufs : List UInt32} {name : Bytes}
    (h : createTableFile dir table sufs = .ok name) :
    dir.file name = none ∧ validTableName name := by
  unfold createTableFile at h
  split at h
  · rename_i fnd hgot
    cases h
    have hfree := find?_some hgot
    obtain ⟨suf, -, rfl⟩ := mem_map.mp (mem_of_find?_eq_some hgot)
    exact ⟨by simpa using hfree, tableName_valid _ _ _⟩
  · cases h

lemma publish_eq_ok {dir' : StackDir} {sufs : List UInt32}
    (h : publish lim dir names table bytes sufs = .ok dir') :
    ∃ name, dir.file name = none ∧ validTableName name ∧ names.length < lim.tables.toNat ∧
      (joinLines (names ++ [name])).length ≤ lim.listBytes.toNat ∧
      dir' = ⟨some (joinLines (names ++ [name])), fun other =>
        if other = name then some bytes else dir.file other⟩ := by
  simp only [publish, bind_ok, reject_ok, not_le, not_lt, ge_iff_le, gt_iff_lt] at h
  obtain ⟨-, hnum, name, hname, -, hlist, h⟩ := h
  cases h
  obtain ⟨hfree, hvd⟩ := createTableFile_eq_ok hname
  exact ⟨name, hfree, hvd, hnum, hlist, rfl⟩

lemma read_joinLines {files : List Bytes} {merge : Merge} (hne : names ≠ [])
    (hlis : Listed lim names) (hlist : dir.list = some (joinLines names))
    (hbs : (joinLines names).length ≤ lim.listBytes.toNat)
    (hfil : names.mapM (openTable dir) = .ok files)
    (hmerge : files.foldlM (mergeTable codec fmt) (empty lim) = .ok merge) :
    Snapshot.read codec dir fmt lim = .ok (merge.snapshot fmt lim names) := by
  have hread : readList dir lim = .ok (joinLines names) := by
    simp [readList, hlist, reject, hbs.not_gt, bind, Except.bind, pure, Except.pure]
  simp only [Snapshot.read, bind_ok]
  exact ⟨_, hread, _, listNames_joinLines hne hlis.valid hlis.nodup hlis.count, _, hfil, _, hmerge,
    rfl⟩

lemma not_mem_names {files : List Bytes}
    {name : Bytes} (hfil : names.mapM (openTable dir) = .ok files) (hfree : dir.file name = none) :
    name ∉ names := by
  intro hmem
  obtain ⟨bytes, -, hopen⟩ := forall₂_mem_left (forall₂_of_mapM_eq_ok hfil) hmem
  simp [openTable, hfree] at hopen

lemma decode_eq_ok {zlib : Zlib} {crc32 : Bytes → UInt32} {lim : Limits}
    (h : Table.decode zlib crc32 bytes lim = .ok table) :
    bytes.length ≤ lim.bytes.toNat ∧
      ∃ recs dec, Table.decodeUsage zlib crc32 bytes lim = .ok (table, recs, dec) := by
  obtain ⟨⟨t, recs, dec⟩, husa, h⟩ := bind_ok.mp h
  cases h
  have hlen := husa
  simp only [Table.decodeUsage, bind_ok, reject_ok] at hlen
  obtain ⟨-, hlen, -⟩ := hlen
  exact ⟨not_lt.mp hlen, recs, dec, husa⟩

lemma add_empty_snapshot {lim : StackLimits} {table : Table} {names : List Bytes} {bytes recs dec : Nat}
    (hrefs : OrderedMap.Sorted (table.references.map (fun r => (r.key, r))))
    (hlogs : OrderedMap.Sorted (table.logs.map (fun r => (r.key, r)))) :
    ((((empty lim).add table).charge bytes recs dec).snapshot table.format lim names).table =
      table := by
  have href : (((empty lim).add table).references).values = table.references := by
    change (OrdMap.insertAll .empty _).entries.map Prod.snd = _
    rw [OrdMap.entries_insertAll_empty hrefs, map_map]
    exact map_id _
  have hlog : (((empty lim).add table).logs).values = table.logs := by
    change (OrdMap.insertAll .empty _).entries.map Prod.snd = _
    rw [OrdMap.entries_insertAll_empty hlogs, map_map]
    exact map_id _
  change (⟨table.format, _, _, (((empty lim).add table).references).values,
    (((empty lim).add table).logs).values⟩ : Table) = table
  rw [href, hlog]
  rfl

/-- A list of one table that was encoded is read back as that table. -/
lemma read_single {codec : Codec} (hz : codec.zlib.Inverts) {fmt : ObjectFormat} {lim : StackLimits} {name : Bytes}
    {file : Bytes → Option Bytes} (hform : table.format = fmt)
    (hrefs : OrderedMap.Sorted (table.references.map (fun r => (r.key, r))))
    (hlogs : OrderedMap.Sorted (table.logs.map (fun r => (r.key, r))))
    (henc : table.encode codec.zlib codec.crc32 lim.records = .ok bytes) (hvd : validTableName name)
    (hlim : 0 < lim.tables.toNat) (hlen : (joinLines [name]).length ≤ lim.listBytes.toNat)
    (hfile : file name = some bytes) :
    ∃ s, Snapshot.read codec ⟨some (joinLines [name]), file⟩ fmt lim = .ok s ∧ s.table = table := by
  subst hform
  obtain ⟨hlay, decoded, hdec⟩ := encode_eq_ok henc
  obtain rfl : decoded = table := decode_layout hz hlay hdec
  obtain ⟨hfits, recs, dec, husa⟩ := decode_eq_ok hdec
  have hmerge : [bytes].foldlM (mergeTable codec decoded.format) (empty lim) =
      .ok (((empty lim).add decoded).charge bytes.length recs dec) := by
    rw [foldlM_cons, bind_ok]
    refine ⟨_, ?_, rfl⟩
    simp only [mergeTable, bind_ok, reject_ok, wrapError_eq_ok]
    exact ⟨(), hfits.not_gt, _, husa, (), not_not.mpr rfl, (), fun hne => hne.1 rfl, rfl⟩
  refine ⟨_, read_joinLines (cons_ne_nil name []) ?_ rfl hlen ?_ hmerge, add_empty_snapshot hrefs hlogs⟩
  · exact Listed.append ⟨by simp, nodup_nil, Nat.zero_le _⟩ hvd (by simp) hlim
  · simp [openTable, hfile, pure, Except.pure, bind, Except.bind]

/-- The merged view of a compacted stack has the live references, the live log entries and the
update indexes of the view it replaces. -/
theorem compact_keeps_live (codec : Codec) (hz : codec.zlib.Inverts) (format : ObjectFormat)
    (limits : StackLimits) (dir dir' : StackDir) (suffixes : List UInt32) (removed : Bytes → Bool)
    (h : compact codec format limits dir suffixes removed = .ok dir') :
    ∃ before after, Snapshot.read codec dir format limits = .ok before ∧
      Snapshot.read codec dir' format limits = .ok after ∧
      after.table.live = before.table.live := by
  simp only [compact, bind_ok] at h
  obtain ⟨before, hbf, h⟩ := h
  by_cases hnames : before.names = []
  · rw [if_pos hnames] at h
    cases h
    exact ⟨before, before, hbf, hbf, rfl⟩
  rw [if_neg hnames] at h
  simp only [bind_ok, wrapError_eq_ok] at h
  obtain ⟨bytes, henc, published, hpub, h⟩ := h
  cases h
  obtain ⟨_, files, merge, -, -, hfil, -, hsnap⟩ := read_eq_ok hbf
  obtain ⟨name, hfree, hvd, hnum, hlist, rfl⟩ := publish_eq_ok hpub
  have hold : name ∉ before.names := not_mem_names hfil hfree
  refine ⟨before, (read_single hz (by rw [hsnap]; rfl) (by rw [hsnap]; exact merge.references_keyed.sorted_values _)
    (by rw [hsnap]; exact merge.logs_keyed.sorted_values _) henc hvd hnum hlist ?_).imp fun after hafter =>
      ⟨hbf, hafter.1, by rw [hafter.2]; simp [Table.live]⟩⟩
  simp [hold]

def deletionStream : Bytes × Bytes :=
  ([0, 128, 64] ++ ascii "refs/heads/main" ++ [0, 255, 255, 255, 255, 255, 255, 255, 253, 0, 0, 4, 0, 1],
   [120, 156, 99, 104, 112, 40, 74, 77, 43, 214, 207, 72, 77, 76, 41, 214, 207, 77, 204, 204, 99, 248, 15, 1,
    127, 25, 24, 88, 24, 24, 1, 224, 197, 14, 116])

def sampleCodec : Codec := ⟨recordedZlib [sampleStream, deletionStream], crc32⟩

lemma sampleCodec_inverts : sampleCodec.zlib.Inverts := by
  refine recordedZlib_inverts ⟨?_, ?_⟩
  · decide +kernel
  · decide +kernel

def deletionTable : Table :=
  ⟨.sha1, 3, 3, [⟨.ofRefName .head, 3, none, none⟩], [⟨.ofRefName sampleBranch, 2, none⟩]⟩

def stackOf (codec : Codec) (limits : Limits) (tables : List Table) : StackDir :=
  let files := tables.zipIdx.map (fun (table, n) =>
    (tableName table.minUpdateIndex table.maxUpdateIndex (UInt32.ofNat n),
      ((table.encode codec.zlib codec.crc32 limits).toOption).getD []))
  ⟨some (joinLines (files.map Prod.fst)), fun name => (files.find? (fun e => e.1 = name)).map Prod.snd⟩

def sampleStackLimits : StackLimits := ⟨8, 4096, Limits.default⟩

def sampleStack : StackDir := stackOf sampleCodec Limits.default [sampleTable, deletionTable]

/-- Compacting the sample stack drops both tombstones with what they deleted. -/
theorem compact_keeps_live_sampleStack :
    ∃ dir', compact sampleCodec .sha1 sampleStackLimits sampleStack [7] (fun _ => true) = .ok dir' ∧
      ∃ before after, Snapshot.read sampleCodec sampleStack .sha1 sampleStackLimits = .ok before ∧
        Snapshot.read sampleCodec dir' .sha1 sampleStackLimits = .ok after ∧
        after.table.live = before.table.live := by
  obtain ⟨dir', h⟩ := exists_ok (show (compact sampleCodec .sha1 sampleStackLimits sampleStack [7] (fun _ => true)).isOk by
    decide +kernel)
  exact ⟨dir', h, compact_keeps_live _ sampleCodec_inverts _ _ _ _ _ _ h⟩

end Girt.Proofs
