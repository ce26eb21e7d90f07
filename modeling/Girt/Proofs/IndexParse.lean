import Girt.Proofs.IndexCodec
import Girt.Proofs.IndexValid
import Girt.Proofs.SplitBitmap

/-!
# What an accepted index file says

A file read under some limits is read to the same index under any limits that the index fits.
-/

namespace Girt.IndexFile

open ByteLib List

variable {fmt : ObjectFormat} {lim : Limits} {index : Index} {poss : List Nat} {id : ObjectId}
variable {data : Bytes}

section Entry

variable {fmt : ObjectFormat} {lim other : Limits} {ver : Version}
variable {off : Nat} {bs : Bytes}
variable {pos kept : Nat} {rest prev : Bytes}

lemma readExtendedFlags_v2 {flags val : Nat}
    (h : readExtendedFlags .v2 pos off flags bs = .ok (val, rest)) : val = 0 := by
  unfold readExtendedFlags at h
  split at h
  · obtain ⟨⟨⟩, hver, -⟩ := bind_ok.mp h
    exact absurd rfl (reject_ok.mp hver)
  · cases h
    rfl

lemma readKept_le (h : readKept ver off prev bs = .ok (kept, rest)) : kept ≤ prev.length := by
  unfold readKept at h
  split at h
  · obtain ⟨rem, -, h⟩ := bind_ok.mp h
    obtain ⟨-, -, h⟩ := bind_ok.mp h
    cases h
    omega
  · cases h
    omega

lemma readSuffixLen_lt {len : Nat} (h : readSuffixLen lim off kept bs = .ok len) :
    len < bs.length := by
  obtain ⟨hlt, -, -⟩ := idxOf?_eq_some_iff.mp (orError_eq_ok.mp h)
  rw [length_take] at hlt
  omega

lemma readSuffixLen_limits {length : Nat} (h : readSuffixLen lim off kept bs = .ok length)
    (hlen : length ≤ other.maxPathBytes - kept) : readSuffixLen other off kept bs = .ok length := by
  have hbs := readSuffixLen_lt h
  obtain ⟨hlt, hzero, hbf⟩ := idxOf?_eq_some_iff.mp (orError_eq_ok.mp h)
  refine orError_eq_ok.mpr (idxOf?_eq_some_iff.mpr ?_)
  refine ⟨by rw [length_take]; omega, ?_, ?_⟩
  · rw [getElem_take] at hzero ⊢
    exact hzero
  intro j hj
  have hj' := hbf j hj
  rw [getElem_take] at hj' ⊢
  exact hj'

lemma parseEntry_eq_ok {off : Nat} {bs : Bytes} {ent : Entry}
    (h : parseEntry fmt lim ver pos off prev bs = .ok (ent, rest)) :
    (ver = .v2 → ent.extended = false) ∧
      (ent.path.length ≤ other.maxPathBytes →
        parseEntry fmt other ver pos off prev bs = .ok (ent, rest)) := by
  simp only [parseEntry, bind_ok, Prod.exists] at h ⊢
  obtain ⟨⟨⟩, hsh, modeWord, hmod, mode, hmode, flags, afterFlags, hflag, kept, afterKept, hkept, -,
    -, len, hlen, ⟨⟩, hname, ⟨⟩, hpad,
    ⟨⟩, hzer, id, hid, stat, hstat, h⟩ := h
  cases h
  constructor
  · rintro rfl
    have hzero : flags = 0 := readExtendedFlags_v2 hflag
    subst hzero
    simp [Entry.extended]
  · intro hpath
    have hle := readKept_le hkept
    have hsize : kept + min len afterKept.length ≤ other.maxPathBytes := by
      simpa [hle] using hpath
    have hsho : len < afterKept.length := readSuffixLen_lt hlen
    exact ⟨(), hsh, _, hmod, _, hmode, _, _, hflag, _, _, hkept, (), checkCount_eq_ok.mpr (by omega), _,
      readSuffixLen_limits hlen (by omega), (), hname, (), hpad, (), hzer, _, hid, _, hstat, rfl⟩

lemma parseEntries_eq_ok {count off : Nat} {bs : Bytes} {ents : List Entry}
    (h : parseEntries fmt lim ver count pos off prev bs = .ok (ents, rest)) :
    ents.length = count ∧ (ver = .v2 → ∀ ent ∈ ents, ent.extended = false) ∧
      ((∀ ent ∈ ents, ent.path.length ≤ other.maxPathBytes) →
        parseEntries fmt other ver count pos off prev bs = .ok (ents, rest)) := by
  induction count generalizing pos off prev bs ents with
  | zero =>
    cases h
    exact ⟨rfl, by simp, fun _ => rfl⟩
  | succ count ih =>
    obtain ⟨⟨ent, afterEntry⟩, hen, h⟩ := bind_ok.mp h
    obtain ⟨⟨more, afterMore⟩, hmore, h⟩ := bind_ok.mp h
    cases h
    obtain ⟨hflag, hpar⟩ := @parseEntry_eq_ok fmt lim other ver _ _ _ _ _ _ hen
    obtain ⟨hnum, hrest, hpair⟩ := ih hmore
    refine ⟨by rw [length_cons, hnum], ?_, ?_⟩
    · intro hver e he
      rcases mem_cons.mp he with rfl | he
      · exact hflag hver
      · exact hrest hver e he
    · intro hpath
      refine bind_ok.mpr ⟨_, hpar (hpath ent (.head _)), ?_⟩
      exact bind_ok.mpr ⟨_, hpair (fun e he => hpath e (.tail _ he)), rfl⟩

end Entry

lemma parseExtensions_eq_ok {lim other : Limits} {off seen : Nat} {bs : Bytes} {exts : List Extension}
    (h : parseExtensions lim off seen bs = .ok exts) :
    (∀ ext ∈ exts, Accepted ext.signature) ∧
      (seen + exts.length ≤ other.maxExtensions → parseExtensions other off seen bs = .ok exts) := by
  fun_induction parseExtensions lim off seen bs generalizing exts with
  | case1 off seen =>
    cases h
    refine ⟨by simp, fun _ => ?_⟩
    rw [parseExtensions, dif_pos rfl]
  | case2 off seen bs hbs ih =>
    simp only [bind_ok] at h
    obtain ⟨-, -, sig, hsig, ⟨⟩, hacc, len, hlen, ⟨⟩, hdata, rest, hrest, h⟩ := h
    cases h
    obtain ⟨hall, hpar⟩ := ih len hrest
    constructor
    · intro e he
      rcases mem_cons.mp he with rfl | he
      · have hsome := reject_ok.mp hacc
        unfold Accepted
        by_contra hnone
        push Not at hnone
        exact hsome ⟨by simpa using hnone.1, hnone.2⟩
      · exact hall e he
    · intro hle
      rw [length_cons] at hle
      rw [parseExtensions, dif_neg hbs]
      simp only [bind_ok]
      exact ⟨(), checkCount_eq_ok.mpr (by omega), _, hsig, (), hacc, _, hlen, (), hdata, _,
        hpar (by omega), rfl⟩

/-- What an accepted file says about the index read from it. -/
structure FileRead (fmt : ObjectFormat) (bytes : Bytes) (index : Index) : Prop where
  format_eq : index.format = fmt
  original_eq : index.original = some bytes
  framed : Framed index.entries index.extensions
  unextended : index.version = .v2 → ∀ entry ∈ index.entries, entry.extended = false

lemma parseFile_eq_ok {digs : Digests} {bs : Bytes} (h : Index.parseFile digs fmt bs lim = .ok index) :
    FileRead fmt bs index ∧
      (index.has .link = false → validateEntries fmt index.entries lim = .ok ()) ∧
      ∀ other : Limits, bs.length ≤ other.maxBytes → index.entries.length ≤ other.maxEntries →
        index.extensions.length ≤ other.maxExtensions →
        (∀ ent ∈ index.entries, ent.path.length ≤ other.maxPathBytes) →
        Index.parseFile digs fmt bs other = .ok index := by
  simp only [Index.parseFile, bind_ok, Prod.exists] at h ⊢
  obtain ⟨-, -, ⟨⟩, hhd, versionWord, hver, ver, hversion, ⟨⟩, hche, count, hcount, -, -, ⟨⟩, hroom,
    ents, rest, hens, exts, hexs, ⟨⟩, hspa, h⟩ := h
  have hvd : (exts.any (·.signature = .link) = false →
      validateEntries fmt ents lim = .ok ()) ∧ index = ⟨fmt, ver, some bs, ents, exts⟩ := by
    split at h
    · rename_i hlink
      cases h
      exact ⟨fun hnone => by simp [hlink] at hnone, rfl⟩
    · obtain ⟨⟨⟩, hens, h⟩ := bind_ok.mp h
      cases h
      exact ⟨fun _ => hens, rfl⟩
  obtain ⟨hvd, rfl⟩ := hvd
  obtain ⟨hsdir, hdata, hneed⟩ := checkSparse_eq_ok.mp hspa
  have hacc := (@parseExtensions_eq_ok lim lim _ _ _ _ hexs).1
  have hune := (@parseEntries_eq_ok fmt lim lim ver _ _ _ _ _ _ _ hens).2.1
  refine ⟨⟨rfl, rfl, ⟨hacc, hsdir, hdata, hneed⟩, hune⟩, hvd, ?_⟩
  intro other hbs hlen hext hpath
  obtain ⟨hnum, -, hrep⟩ := @parseEntries_eq_ok fmt lim other ver _ _ _ _ _ _ _ hens
  refine ⟨(), checkCount_eq_ok.mpr hbs, (), hhd, _, hver, _, hversion, (), hche, _, hcount, (),
    checkCount_eq_ok.mpr (hnum ▸ hlen), (), hroom,
    _, _, hrep hpath, _, (parseExtensions_eq_ok hexs).2 (by rw [Nat.zero_add]; exact hext), (), hspa, ?_⟩
  split
  · rfl
  · rename_i hlink
    exact bind_ok.mpr ⟨(), validateEntries_limits (hvd (by simpa using hlink)) hpath, rfl⟩

/-! ## Shared files -/

lemma linkBitmaps_zero {deleted replaced : List Nat}
    (h : Index.linkBitmaps data id 0 = .ok (deleted, replaced)) : deleted = [] ∧ replaced = [] := by
  have hnil : ∀ {bs rest : Bytes} {poss : List Nat}, bitmap bs 0 = .ok (poss, rest) → poss = [] := by
    intro bs rest poss hbit
    have hheld : poss = bitmapHeld bs 0 := (bitmap_eq_ok (show bitmap (bs.drop 0) 0 = _ from hbit)).1
    rw [hheld, ← length_eq_zero_iff]
    exact Nat.le_zero.mp (bitmapHeld_ascending bs 0).length_le
  simp only [Index.linkBitmaps] at h
  split at h
  · cases h
    exact ⟨rfl, rfl⟩
  obtain ⟨⟨deleted, _⟩, hdel, h⟩ := bind_ok.mp h
  obtain ⟨⟨replaced, _⟩, hrep, h⟩ := bind_ok.mp h
  obtain ⟨⟨⟩, -, h⟩ := bind_ok.mp h
  cases h
  exact ⟨hnil hdel, hnil hrep⟩

lemma resolveEntries_nil {drafts entries : List Entry} :
    Index.resolveEntries fmt lim data id [] drafts = .ok entries ↔
      Index.linkBitmaps data id 0 = .ok ([], []) ∧ drafts.length ≤ lim.maxEntries ∧
        validateEntries fmt drafts lim = .ok () ∧ entries = drafts := by
  constructor
  · intro h
    obtain ⟨⟨deleted, replaced⟩, hlink, h⟩ := bind_ok.mp h
    obtain ⟨rfl, rfl⟩ := linkBitmaps_zero hlink
    simp only [bind_ok] at h
    obtain ⟨-, -, slots, hslo, ⟨⟩, hnum, ⟨⟩, hvd, -, -, h⟩ := h
    cases hslo
    cases h
    refine ⟨hlink, ?_, hvd, sortEntries_of_valid hvd⟩
    simpa [removePositions] using hnum
  · rintro ⟨hlink, hnum, hvd, rfl⟩
    refine bind_ok.mpr ⟨_, hlink, reject_bind.mpr ⟨(by simp), ?_⟩⟩
    refine bind_ok.mpr ⟨[], rfl, reject_bind.mpr ⟨?_, ?_⟩⟩
    · simpa [removePositions] using hnum
    have hsort : sortEntries (removePositions [] [] ++ entries.drop ([] : List Nat).length) = entries :=
      sortEntries_of_valid hvd
    refine bind_ok.mpr ⟨(), hvd, bind_ok.mpr ⟨(), ?_, ?_⟩⟩
    · rw [hsort]
      exact hvd
    · rw [hsort]

lemma resolveEntries_valid {base drafts ents : List Entry}
    (h : Index.resolveEntries fmt lim data id base drafts = .ok ents) :
    validateEntries fmt ents lim = .ok () := by
  simp only [Index.resolveEntries, bind_ok, Prod.exists] at h
  obtain ⟨_, _, -, -, -, slots, -, -, -, -, -, ⟨⟩, hvd, h⟩ := h
  cases h
  exact hvd

/-- How an index depends on a shared file: not at all, through a link that names none, or through
one that names a file. -/
structure LinkRead (fmt : ObjectFormat) (extensions : List Extension) : Prop where
  link_le : (extensions.filter (fun extension => extension.signature = .link)).length ≤ 1
  link_data : ∀ link ∈ extensions, link.signature = .link →
    ∃ id, ObjectId.fromBytes fmt (link.data.take fmt.digestLen) = some id ∧
      (id = .null fmt → Index.linkBitmaps link.data id 0 = .ok ([], []))

lemma mem_filter_signature {extensions : List Extension} {signature : Signature}
    {extension : Extension} :
    extension ∈ extensions.filter (·.signature = signature) ↔
      extension ∈ extensions ∧ extension.signature = signature := by
  simp

lemma sharedIndexId_of_filter {link : Extension} {rest : List Extension}
    (hlink : index.extensions.filter (·.signature = .link) = link :: rest)
    (hid : ObjectId.fromBytes index.format (link.data.take index.format.digestLen) = some id) :
    index.sharedIndexId = if id = .null index.format then none else some id := by
  have hfind : index.extensions.find? (·.signature = .link) = some link := by
    rw [← head?_filter, hlink]
    rfl
  simp [Index.sharedIndexId, hfind, hid]

lemma sharedIndexId_of_no_link (hlink : index.extensions.filter (·.signature = .link) = []) :
    index.sharedIndexId = none := by
  have hfind : index.extensions.find? (·.signature = .link) = none := by
    rw [← head?_filter, hlink]
    rfl
  simp [Index.sharedIndexId, hfind]

lemma resolveWith_standalone {index : Index} {lim : Limits}
    (hlink : LinkRead index.format index.extensions) (hshare : index.sharedIndexId = none)
    (hnum : index.entries.length ≤ lim.maxEntries)
    (hvd : validateEntries index.format index.entries lim = .ok ())
    (shared : ObjectId → Except Error Index) : index.resolveWith shared lim = .ok index := by
  have hle := hlink.link_le
  cases hkeeps : index.extensions.filter (·.signature = .link) with
  | nil => simp only [Index.resolveWith, hkeeps]
  | cons link rest =>
    have hrest : rest = [] := by
      rw [hkeeps, length_cons] at hle
      exact eq_nil_of_length_eq_zero (by omega)
    subst hrest
    have hmem : link ∈ index.extensions ∧ link.signature = .link := by
      rw [← mem_filter_signature, hkeeps]
      exact mem_singleton_self link
    obtain ⟨id, hid, hnull⟩ := hlink.link_data link hmem.1 hmem.2
    have hidN : id = .null index.format := by
      rw [sharedIndexId_of_filter hkeeps hid] at hshare
      by_contra hne
      simp [hne] at hshare
    simp only [Index.resolveWith, hkeeps]
    refine bind_ok.mpr ⟨id, orError_eq_ok.mpr hid, ?_⟩
    rw [Index.sharedBase, if_pos hidN]
    exact bind_ok.mpr ⟨_, rfl, bind_ok.mpr ⟨_, resolveEntries_nil.mpr ⟨hnull hidN, hnum, hvd, rfl⟩, rfl⟩⟩

/-- What a resolved index is: one that names no shared file and is as it was read, or one whose
entries come from the file that was found. -/
lemma resolveWith_eq_ok {resolved : Index} {shared : ObjectId → Except Error Index}
    (h : index.resolveWith shared lim = .ok resolved) :
    LinkRead index.format index.extensions ∧
      ((index.sharedIndexId = none ∧ resolved = index ∧
          (index.has .link → validateEntries index.format index.entries lim = .ok ())) ∨
        ∃ id base, index.sharedIndexId = some id ∧ shared id = .ok base ∧
          validateEntries index.format resolved.entries lim = .ok () ∧
          resolved = { index with entries := resolved.entries }) := by
  unfold Index.resolveWith at h
  split at h
  · rename_i hkeeps
    cases h
    have hnone : index.has .link = false := by
      simpa [Index.has, filter_eq_nil_iff] using hkeeps
    refine ⟨⟨by rw [hkeeps]; simp, ?_⟩, .inl ⟨sharedIndexId_of_no_link hkeeps, rfl, by simp [hnone]⟩⟩
    intro link hlink hsig
    have hmem := mem_filter_signature.mpr ⟨hlink, hsig⟩
    rw [hkeeps] at hmem
    cases hmem
  · rename_i link hkeeps
    obtain ⟨id, hid, h⟩ := bind_ok.mp h
    obtain ⟨base, hbase, h⟩ := bind_ok.mp h
    obtain ⟨entries, hens, h⟩ := bind_ok.mp h
    cases h
    have hid := orError_eq_ok.mp hid
    have hshare := sharedIndexId_of_filter hkeeps hid
    have hread : (id = .null index.format → Index.linkBitmaps link.data id 0 = .ok ([], [])) →
        LinkRead index.format index.extensions := by
      intro hnull
      refine ⟨by rw [hkeeps]; simp, ?_⟩
      intro other hoth hsig
      have hmem := mem_filter_signature.mpr ⟨hoth, hsig⟩
      rw [hkeeps, mem_singleton] at hmem
      subst hmem
      exact ⟨id, hid, hnull⟩
    unfold Index.sharedBase at hbase
    by_cases hnull : id = .null index.format
    · rw [if_pos hnull] at hbase hshare
      cases hbase
      obtain ⟨hbit, -, hvd, rfl⟩ := resolveEntries_nil.mp hens
      exact ⟨hread (fun _ => hbit), .inl ⟨hshare, rfl, fun _ => hvd⟩⟩
    · rw [if_neg hnull] at hbase hshare
      refine ⟨hread (absurd · hnull), .inr ⟨id, base, hshare, hbase, ?_, rfl⟩⟩
      exact resolveEntries_valid hens
  · cases h

end Girt.IndexFile
