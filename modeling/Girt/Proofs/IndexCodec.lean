import Girt.Index.Split
import Girt.Proofs.IndexEntry

/-!
# Reading back an index file

A file written from entries and extensions that its version can hold is read back to them.
-/

namespace Girt.IndexFile

open ByteLib List

variable {prev : Bytes} {extensions : List Extension}

/-- What an entry needs to be read back from a file of this version. -/
structure Writable (format : ObjectFormat) (limits : Limits) (ver : Version) (entry : Entry) : Prop where
  format_eq : entry.id.format = format
  path_le : entry.path.length ≤ limits.maxPathBytes
  zero_notMem : 0 ∉ entry.path
  extended_eq : ver = .v2 → entry.extended = false

section Lengths

variable {lim : Limits} {ver : Version}

lemma encodedEntryLen_eq_ok {ent : Entry} {size : Nat}
    (h : encodedEntryLen ver prev ent = .ok size) : size = (encodeEntry ver prev ent).length := by
  rw [encodeEntry_length]
  unfold encodedEntryLen at h
  split at h
  · obtain ⟨-, -, h⟩ := bind_ok.mp h
    cases h
    rfl
  obtain ⟨-, -, h⟩ := bind_ok.mp h
  obtain ⟨-, -, h⟩ := bind_ok.mp h
  cases h
  rfl

lemma entriesLen_eq_ok {ents : List Entry} {len total : Nat}
    (h : entriesLen lim ver len prev ents = .ok total) :
    total = len + (encodeEntries ver prev ents).length ∧
      ∀ ent ∈ ents, ent.path.length ≤ lim.maxPathBytes := by
  induction ents generalizing len prev with
  | nil =>
    cases h
    simp [encodeEntries]
  | cons ent ents ih =>
    simp only [entriesLen, bind_ok, checkCount_eq_ok, reject_ok, exists_and_left, exists_const] at h
    obtain ⟨hpath, size, hsize, -, h⟩ := h
    obtain ⟨htot, hpat⟩ := ih h
    constructor
    · rw [htot, encodedEntryLen_eq_ok hsize, encodeEntries, length_append]
      omega
    intro other hoth
    rcases mem_cons.mp hoth with rfl | hoth
    · exact hpath
    · exact hpat other hoth

lemma encodeExtension_length (ext : Extension) :
    (encodeExtension ext).length = 8 + ext.data.length := by
  simp [encodeExtension, ext.signature.width]
  omega

lemma extensionsLen_eq_ok {len total : Nat}
    (h : extensionsLen len extensions = .ok total) :
    total = len + (extensions.flatMap encodeExtension).length ∧
      ∀ ext ∈ extensions, ext.data.length < 2 ^ 32 := by
  induction extensions generalizing len with
  | nil =>
    cases h
    simp
  | cons ext extensions ih =>
    simp only [extensionsLen, bind_ok, checkCount_eq_ok, reject_ok, exists_and_left, exists_const] at h
    obtain ⟨hdata, -, h⟩ := h
    obtain ⟨htot, hrest⟩ := ih h
    constructor
    · rw [htot, flatMap_cons, length_append, encodeExtension_length]
      omega
    intro other hoth
    rcases mem_cons.mp hoth with rfl | hoth
    · omega
    · exact hrest other hoth

structure Fits (index : Index) (limits : Limits) (length : Nat) : Prop where
  entries_le : index.entries.length ≤ limits.maxEntries
  entries_lt : index.entries.length < 2 ^ 32
  extensions_le : index.extensions.length ≤ limits.maxExtensions
  path_le : ∀ entry ∈ index.entries, entry.path.length ≤ limits.maxPathBytes
  data_lt : ∀ extension ∈ index.extensions, extension.data.length < 2 ^ 32
  length_eq : length = (index.original.map List.length).getD (index.content.length + index.format.digestLen)
  length_le : length ≤ limits.maxBytes

lemma content_length (idx : Index) :
    idx.content.length = 12 + (encodeEntries idx.version [] idx.entries).length +
      (idx.extensions.flatMap encodeExtension).length := by
  simp only [Index.content, length_append, putWord_length, beBytes_length]
  rfl

lemma fits_of_encodedLen {idx : Index} {length : Nat} (h : idx.encodedLen lim = .ok length) :
    Fits idx lim length := by
  simp only [Index.encodedLen, bind_ok, checkCount_eq_ok, exists_and_left, exists_const] at h
  obtain ⟨hens, hexs, n, hn, m, hm, hlen, h⟩ := h
  cases h
  obtain ⟨rfl, hpath⟩ := entriesLen_eq_ok hn
  obtain ⟨rfl, hdata⟩ := extensionsLen_eq_ok hm
  refine ⟨by omega, by omega, hexs, hpath, hdata, ?_, hlen⟩
  rw [content_length]
  congr 1
  omega

end Lengths

lemma entrySize_ge (ver : Version) (prev : Bytes) (entry : Entry) :
    43 + entry.id.format.digestLen ≤ entrySize ver prev entry := by
  have hend := writtenLength_lt ver prev entry
  have hfix := fixedBytes_length entry
  unfold writtenLength at hend
  omega

section Entries

variable {fmt : ObjectFormat} {lim : Limits} {ver : Version}

lemma encodeEntries_length_ge {ents : List Entry} {prev : Bytes}
    (h : ∀ ent ∈ ents, ent.id.format = fmt) :
    ents.length * (43 + fmt.digestLen) ≤ (encodeEntries ver prev ents).length := by
  induction ents generalizing prev with
  | nil => simp
  | cons ent ents ih =>
    have hrest := @ih ent.path (fun other hoth => h other (.tail _ hoth))
    have hsize := entrySize_ge ver prev ent
    rw [h ent mem_cons_self] at hsize
    rw [encodeEntries, length_append, encodeEntry_length, length_cons, Nat.succ_mul]
    omega

lemma parseEntries_written {ents : List Entry} (hens : ∀ ent ∈ ents, Writable fmt lim ver ent)
    (hprev : prev.length ≤ usizeMax) (pos off : Nat) (rest : Bytes) :
    parseEntries fmt lim ver ents.length pos off prev (encodeEntries ver prev ents ++ rest) =
      .ok (ents, rest) := by
  induction ents generalizing prev pos off with
  | nil => rfl
  | cons ent ents ih =>
    have hen := hens ent (.head _)
    have hpath : ent.path.length ≤ usizeMax := le_trans hen.path_le lim.machine.2.2.1
    rw [encodeEntries, length_cons, parseEntries, append_assoc]
    refine bind_ok.mpr ⟨_, parseEntry_written hen.format_eq hen.path_le hen.zero_notMem
      hen.extended_eq hprev _ _ _, ?_⟩
    exact bind_ok.mpr ⟨_, ih (fun other hoth => hens other (.tail _ hoth)) hpath _ _, rfl⟩

end Entries

def Accepted (signature : Signature) : Prop :=
  signature.optional = true ∨ signature = .link ∨ signature = .sdir

lemma parseExtensions_written {lim : Limits} {seen : Nat}
    (hacc : ∀ ext ∈ extensions, Accepted ext.signature)
    (hdata : ∀ ext ∈ extensions, ext.data.length < 2 ^ 32)
    (hnum : seen + extensions.length ≤ lim.maxExtensions) (off : Nat) :
    parseExtensions lim off seen (extensions.flatMap encodeExtension) = .ok extensions := by
  induction extensions generalizing seen off with
  | nil =>
    rw [parseExtensions]
    simp
  | cons ext extensions ih =>
    have hacce := hacc ext (.head _)
    have hlen := hdata ext (.head _)
    have hsig := ext.signature.width
    set bs := (ext :: extensions).flatMap encodeExtension with hbs
    have hpar : bs = ext.signature.bytes ++
        (beBytes 4 ext.data.length ++ (ext.data ++ extensions.flatMap encodeExtension)) := by
      rw [hbs, flatMap_cons, encodeExtension]
      simp
    have hsize : 8 ≤ bs.length := by
      rw [hpar]
      simp only [length_append, beBytes_length]
      omega
    have hnil : bs ≠ [] := by
      intro h
      simp [h] at hsize
    have hname : signatureOf bs = some ext.signature := by
      have htake : bs.take 4 = ext.signature.bytes := by
        rw [hpar, ← hsig, take_left' rfl]
      rw [signatureOf, dif_pos hsize]
      simp only [htake]
    have hword : word bs 4 = .ok (UInt32.ofNat ext.data.length) := by
      rw [word_eq_ok, putWord_ofNat hlen, hpar, ← hsig, drop_left' rfl, hsig]
      simp
    have hval : (UInt32.ofNat ext.data.length).toNat = ext.data.length := by
      rw [UInt32.toNat_ofNat', Nat.mod_eq_of_lt hlen]
    have hpay : bs.drop 8 = ext.data ++ extensions.flatMap encodeExtension := by
      have hhd : (ext.signature.bytes ++ beBytes 4 ext.data.length).length = 8 := by
        simp [hsig]
      rw [hpar, ← append_assoc, ← hhd, drop_left' rfl]
    have hrest : bs.drop (8 + ext.data.length) = extensions.flatMap encodeExtension := by
      rw [← drop_drop, hpay, drop_left' rfl]
    rw [length_cons] at hnum
    rw [parseExtensions, dif_neg hnil]
    refine bind_ok.mpr ⟨(), checkCount_eq_ok.mpr (by omega), ?_⟩
    refine bind_ok.mpr ⟨_, orError_eq_ok.mpr hname, ?_⟩
    refine reject_bind.mpr ⟨?_, ?_⟩
    · rcases hacce with h | h | h <;> simp [h]
    refine bind_ok.mpr ⟨_, hword, ?_⟩
    simp only [hval, hpay, take_left, hrest]
    refine reject_bind.mpr ⟨(by simp), ?_⟩
    exact bind_ok.mpr ⟨_, ih (fun other hoth => hacc other (.tail _ hoth))
      (fun other hoth => hdata other (.tail _ hoth)) (by omega) _, rfl⟩

/-- What the extensions of a file need for its entries. -/
structure Framed (entries : List Entry) (extensions : List Extension) : Prop where
  accepted : ∀ extension ∈ extensions, Accepted extension.signature
  sdir_le : (extensions.filter (fun extension => extension.signature = .sdir)).length ≤ 1
  sdir_data : ∀ extension ∈ extensions, extension.signature = .sdir → extension.data = []
  sparse : entries.any (fun entry => entry.mode = .sparseDirectory) →
    extensions.any (fun extension => extension.signature = .sdir)

lemma checkSparse_eq_ok {ents : List Entry} {off : Nat} :
    checkSparse off ents extensions = .ok () ↔
      (extensions.filter (·.signature = .sdir)).length ≤ 1 ∧
      (∀ ext ∈ extensions, ext.signature = .sdir → ext.data = []) ∧
      (ents.any (·.mode = .sparseDirectory) →
        extensions.any (·.signature = .sdir)) := by
  have hemp : extensions.filter (·.signature = .sdir) = [] ↔
      ¬ extensions.any (·.signature = .sdir) := by
    simp [filter_eq_nil_iff]
  have hmem : ∀ ext, ext ∈ extensions.filter (·.signature = .sdir) ↔
      ext ∈ extensions ∧ ext.signature = .sdir := by
    simp
  simp only [checkSparse, bind_ok, reject_ok, not_or, not_and, exists_and_left, exists_const, hemp,
    not_not]
  generalize extensions.filter (·.signature = .sdir) = sparse at hmem
  constructor
  · rintro ⟨⟨hone, hdata⟩, hneed⟩
    refine ⟨by omega, ?_, hneed⟩
    intro ext hext hsig
    obtain ⟨only, rfl⟩ : ∃ only, sparse = [only] := by
      have hpos := length_pos_of_mem ((hmem ext).mpr ⟨hext, hsig⟩)
      exact length_eq_one_iff.mp (by omega)
    have heq : ext = only := by
      simpa using (hmem ext).mpr ⟨hext, hsig⟩
    subst heq
    simpa using hdata
  · rintro ⟨hone, hdata, hneed⟩
    refine ⟨⟨by omega, ?_⟩, hneed⟩
    cases sparse with
    | nil => simp
    | cons only rest =>
      obtain ⟨hext, hsig⟩ := (hmem only).mp (.head _)
      simp [hdata only hext hsig]

/-- A fresh encoding is accepted and read back to the index it was written from. -/
theorem parseFile_content {digests : Digests} {idx : Index} {lim : Limits} {length : Nat}
    (horg : idx.original = none) (hfits : Fits idx lim length)
    (hens : ∀ ent ∈ idx.entries, Writable idx.format lim idx.version ent)
    (hfra : Framed idx.entries idx.extensions)
    (hvd : validateEntries idx.format idx.entries lim = .ok ()) :
    Index.parseFile digests idx.format (idx.content ++ (digests.digest idx.format idx.content).bytes) lim =
      .ok { idx with original := some (idx.content ++ (digests.digest idx.format idx.content).bytes) } := by
  have hche : (digests.digest idx.format idx.content).bytes.length = idx.format.digestLen := by
    rw [(digests.digest idx.format idx.content).width, digests.digest_format]
  set checksum := (digests.digest idx.format idx.content).bytes with hdig
  have hlen := hfits.length_eq
  have hbs : (idx.content ++ checksum).length = length := by
    rw [hlen, horg, length_append, hche]
    rfl
  have hcon := content_length idx
  have hstop : (idx.content ++ checksum).length - idx.format.digestLen = idx.content.length := by
    rw [length_append, hche]
    omega
  have hpar : idx.content = ascii "DIRC" ++ (putWord idx.version.word ++
      (putWord (UInt32.ofNat idx.entries.length) ++ (encodeEntries idx.version [] idx.entries ++
        idx.extensions.flatMap encodeExtension))) := by
    rw [putWord_ofNat hfits.entries_lt, Index.content]
    simp
  have hskip : ∀ (n : Nat) (rest : Bytes), (ascii "DIRC" ++ rest).drop (n + 4) = rest.drop n := by
    intro n rest
    have hlen : (ascii "DIRC").length = 4 := rfl
    rw [Nat.add_comm, ← hlen, drop_length_add_append]
  have hver : word (idx.content ++ checksum) 4 = .ok idx.version.word := by
    rw [word_eq_ok, hpar]
    simp [hskip]
  have hcount : word (idx.content ++ checksum) 8 = .ok (UInt32.ofNat idx.entries.length) := by
    rw [word_eq_ok, hpar]
    simp [hskip]
  have hrest : idx.content.drop 12 = encodeEntries idx.version [] idx.entries ++
      idx.extensions.flatMap encodeExtension := by
    rw [hpar]
    simp [hskip, drop_putWord]
  have hnum : (UInt32.ofNat idx.entries.length).toNat = idx.entries.length := by
    rw [UInt32.toNat_ofNat', Nat.mod_eq_of_lt hfits.entries_lt]
  have hroom : idx.entries.length ≤ (idx.content.length - 12) / (43 + idx.format.digestLen) := by
    rw [Nat.le_div_iff_mul_le (by omega)]
    have := @encodeEntries_length_ge idx.format idx.version idx.entries []
      (fun ent hen => (hens ent hen).format_eq)
    omega
  simp only [Index.parseFile, hstop, take_left, drop_left, hrest]
  refine bind_ok.mpr ⟨(), checkCount_eq_ok.mpr (by rw [hbs]; exact hfits.length_le), ?_⟩
  refine reject_bind.mpr ⟨?_, ?_⟩
  · have hdirc : ascii "DIRC" <+: idx.content ++ checksum := by
      exact prefix_append _ _
    rw [not_or, not_not, isPrefixOf_iff_prefix, length_append, hche]
    exact ⟨by omega, hdirc⟩
  refine bind_ok.mpr ⟨_, hver, ?_⟩
  refine bind_ok.mpr ⟨_, orError_eq_ok.mpr (Version.ofWord_word _), ?_⟩
  refine reject_bind.mpr ⟨(not_not.mpr hdig.symm), ?_⟩
  refine bind_ok.mpr ⟨_, hcount, ?_⟩
  rw [hnum]
  refine bind_ok.mpr ⟨(), checkCount_eq_ok.mpr hfits.entries_le, ?_⟩
  refine reject_bind.mpr ⟨(by omega), ?_⟩
  refine bind_ok.mpr ⟨_, parseEntries_written hens (Nat.zero_le _) _ _ _, ?_⟩
  refine bind_ok.mpr ⟨_, parseExtensions_written hfra.accepted hfits.data_lt
    (by rw [Nat.zero_add]; exact hfits.extensions_le) _, ?_⟩
  refine bind_ok.mpr ⟨(), checkSparse_eq_ok.mpr ⟨hfra.sdir_le, hfra.sdir_data, hfra.sparse⟩, ?_⟩
  split
  · rfl
  · exact bind_ok.mpr ⟨(), hvd, rfl⟩

end Girt.IndexFile
