import Girt.Proofs.IndexEdit
import Girt.Proofs.Recorded

/-!
# What is published is what is read back

An index that names a shared file keeps the bytes it was read from for as long as nothing changes. When its
stat data change, the link stays and a full entry list is written beside it.
-/

namespace Girt.IndexFile

open ByteLib

variable {format : ObjectFormat} {bytes : Bytes} {lim : Limits} {index : Index} {shared : Option Bytes}

variable {digests : Digests}

/-- A version-2 file has no place for extended flags. -/
def Index.Representable (index : Index) : Prop :=
  index.version = .v2 → ∀ entry ∈ index.entries, entry.extended = false

instance (index : Index) : Decidable index.Representable := inferInstanceAs (Decidable (_ → _))

lemma sharedIndexId_congr {left right : Index} (hform : left.format = right.format)
    (hexs : left.extensions = right.extensions) : left.sharedIndexId = right.sharedIndexId := by
  simp only [Index.sharedIndexId, hform, hexs]

lemma parse_eq_ok (h : Index.parse digests format bytes lim = .ok index) :
    index.sharedIndexId = none ∧ index.Representable := by
  obtain ⟨file, hfile, h⟩ := bind_ok.mp h
  obtain ⟨hread, -, -⟩ := parseFile_eq_ok hfile
  obtain ⟨-, hres⟩ := resolveWith_eq_ok h
  rcases hres with ⟨hnone, rfl, -⟩ | ⟨id, base, -, hbase, -⟩
  · exact ⟨hnone, hread.unextended⟩
  · cases hbase

lemma parseFile_of_parse (h : Index.parseWithShared digests format bytes shared lim = .ok index)
    (hnone : index.sharedIndexId = none) :
    Index.parseFile digests format bytes lim = .ok index := by
  obtain ⟨file, hfile, h⟩ := bind_ok.mp h
  obtain ⟨-, hres⟩ := resolveWith_eq_ok h
  rcases hres with ⟨-, rfl, -⟩ | ⟨id, base, hshare, -, -, hsame⟩
  · exact hfile
  have heq : index.sharedIndexId = file.sharedIndexId := by
    rw [hsame]
    rfl
  rw [heq, hshare] at hnone
  cases hnone

section Encode

variable {index : Index} {lim : Limits} {length : Nat}

def Index.encoded (digests : Digests) (index : Index) : Bytes :=
  index.original.getD (index.content ++ (digests.digest index.format index.content).bytes)

lemma encode_eq_ok (h : index.encodedLen lim = .ok length) :
    index.encode digests lim = .ok (index.encoded digests) := by
  refine bind_ok.mpr ⟨length, h, ?_⟩
  cases horg : index.original <;> simp [Index.encoded, horg]

lemma encoded_length (h : index.encodedLen lim = .ok length) :
    (index.encoded digests).length = length := by
  have hlen := (fits_of_encodedLen h).length_eq
  cases horg : index.original with
  | none =>
    have hdig : (digests.digest index.format index.content).bytes.length = index.format.digestLen := by
      rw [(digests.digest index.format index.content).width, digests.digest_format]
    rw [hlen, horg, Index.encoded, horg]
    simp [hdig]
  | some bytes =>
    rw [hlen, horg, Index.encoded, horg]
    rfl

lemma parseFile_encoded (held : Sound digests index) (h : index.encodedLen lim = .ok length)
    (hnone : index.sharedIndexId = none) (hrep : index.Representable) :
    Index.parseFile digests index.format (index.encoded digests) lim =
      .ok { index with original := some (index.encoded digests) } := by
  have hfits := fits_of_encodedLen h
  obtain ⟨wide, hvd⟩ := held.valid
  have hvd := validateEntries_limits hvd hfits.path_le
  cases horg : index.original with
  | none =>
    have hens : ∀ entry ∈ index.entries, Writable index.format lim index.version entry := by
      intro entry hen
      obtain ⟨hform, hzero⟩ := validateEntries_mem hvd entry hen
      exact ⟨hform, hfits.path_le entry hen, hzero, fun hver => hrep hver entry hen⟩
    have hfra : Framed index.entries index.extensions := by
      refine ⟨held.accepted, held.sdir_le, held.sdir_data, ?_⟩
      intro hspa
      rcases held.sparse hspa with hhas | hshare
      · exact hhas
      · exact absurd hnone hshare
    rw [Index.encoded, horg]
    exact parseFile_content horg hfits hens hfra hvd
  | some bytes =>
    obtain ⟨shared, wide, hpar⟩ := held.original bytes horg
    have hfile := parseFile_of_parse hpar hnone
    obtain ⟨-, -, hoth⟩ := parseFile_eq_ok hfile
    have hbs : bytes.length ≤ lim.maxBytes := by
      have hlen := hfits.length_eq
      rw [horg] at hlen
      have hle := hfits.length_le
      rw [hlen] at hle
      exact hle
    have hsame : ({ index with original := some bytes } : Index) = index := by
      rw [← horg]
    rw [Index.encoded, horg]
    refine (hoth lim hbs hfits.entries_le hfits.extensions_le hfits.path_le).trans ?_
    exact congrArg Except.ok hsame.symm

lemma resolve_encoded (held : Sound digests index) (h : index.encodedLen lim = .ok length)
    (hnone : index.sharedIndexId = none) (shared : ObjectId → Except Error Index) :
    Index.resolveWith { index with original := some (index.encoded digests) } shared lim =
      .ok { index with original := some (index.encoded digests) } := by
  have hfits := fits_of_encodedLen h
  obtain ⟨wide, hvd⟩ := held.valid
  exact @resolveWith_standalone { index with original := some (index.encoded digests) } lim held.link hnone
    hfits.entries_le (validateEntries_limits hvd hfits.path_le) shared

end Encode

/-- A standalone index that its version can hold. -/
def Index.Settled (index : Index) : Prop := index.sharedIndexId = none ∧ index.Representable

lemma read_back {index : Index} (held : Reachable digests index) {lim : Limits} {length : Nat}
    (h : index.encodedLen lim = .ok length) :
    index.encode digests lim = .ok (index.encoded digests) ∧
      ((∃ parsed, Index.parse digests index.format (index.encoded digests) lim = .ok parsed ∧ parsed.Same index) ↔
        index.Settled) := by
  have hsound := reachable_sound held
  refine ⟨encode_eq_ok h, ?_⟩
  constructor
  · rintro ⟨parsed, hpar, hform, hver, hens, hexs⟩
    obtain ⟨hnone, hrep⟩ := parse_eq_ok hpar
    refine ⟨(sharedIndexId_congr hform hexs).symm.trans hnone, ?_⟩
    rw [Index.Representable, ← hver, ← hens]
    exact hrep
  · rintro ⟨hnone, hrep⟩
    refine ⟨{ index with original := some (index.encoded digests) }, ?_, rfl, rfl, rfl, rfl⟩
    exact bind_ok.mpr ⟨_, parseFile_encoded hsound h hnone hrep, resolve_encoded hsound h hnone _⟩

/-- Every index within its limits encodes to as many bytes as predicted. Reading them back without
a shared file gives the same format, version, entries and extensions exactly when the index names
no shared file and its version has a place for its flags. -/
theorem encode_read_back_iff {index : Index} (held : Reachable digests index) {limits : Limits} {length : Nat}
    (h : index.encodedLen limits = .ok length) :
    ∃ bytes, index.encode digests limits = .ok bytes ∧ bytes.length = length ∧
      ((∃ parsed, Index.parse digests index.format bytes limits = .ok parsed ∧ parsed.Same index) ↔
        index.sharedIndexId = none ∧ index.Representable) := by
  obtain ⟨henc, hiff⟩ := read_back held h
  exact ⟨index.encoded digests, henc, encoded_length h, hiff⟩

def sampleLimits : Limits := ⟨1024, 8, 64, 4, by decide⟩

def sampleBlob : ObjectId :=
  ⟨.sha1, [230, 157, 226, 155, 178, 209, 214, 67, 75, 139, 41, 174, 119, 90, 216, 194, 228, 140, 83, 145], rfl⟩

def sampleEntry (path : String) (intentToAdd : Bool) : Entry :=
  ⟨ascii path, .regular, sampleBlob, .normal, false, intentToAdd, false, ⟨⟨0, 0⟩, ⟨10, 0⟩, 0, 0, 0, 0, 5⟩⟩

def compressedIndex : Index := ⟨.sha1, .v4, none, [sampleEntry "a" false, sampleEntry "ab" true], []⟩

def compressedDigests : Digests := Proofs.recordedDigests [(compressedIndex.content,
  [136, 186, 222, 18, 111, 142, 133, 62, 143, 117, 52, 132, 27, 166, 112, 243, 205, 93, 181, 75])]

theorem encode_read_back_compressed :
    ∃ bytes parsed, compressedIndex.encode compressedDigests sampleLimits = .ok bytes ∧
      bytes.length = 164 ∧ Index.parse compressedDigests .sha1 bytes sampleLimits = .ok parsed ∧
      parsed.Same compressedIndex := by
  have hbui : Index.new .sha1 [sampleEntry "ab" true, sampleEntry "a" false] sampleLimits =
      .ok { compressedIndex with version := .v3 } := by decide +kernel
  have hver : (Edit.setVersion .v4 sampleLimits).apply { compressedIndex with version := .v3 } =
      .ok compressedIndex := by decide +kernel
  have hlen : compressedIndex.encodedLen sampleLimits = .ok 164 := by decide +kernel
  obtain ⟨bytes, henc, hbs, hiff⟩ :=
    encode_read_back_iff (@Reachable.edited compressedDigests _ _ _ (.built hbui) hver) hlen
  obtain ⟨parsed, hpar, hsame⟩ := hiff.mpr ⟨by decide, by decide⟩
  exact ⟨bytes, parsed, henc, hbs, hpar, hsame⟩

def emptyBitmaps : Bytes := (beBytes 4 0 ++ beBytes 4 1 ++ beBytes 8 0 ++ beBytes 4 0) ++
  (beBytes 4 0 ++ beBytes 4 1 ++ beBytes 8 0 ++ beBytes 4 0)

/-- A shared file whose entry has extended flags, a version-2 index that links to it, and the
version-2 index that remains without the link. -/
def flaggedBase : Index := ⟨.sha1, .v3, none, [sampleEntry "a" true], []⟩

def flaggedId : Bytes := [62, 241, 99, 78, 66, 137, 92, 153, 237, 46, 42, 49, 141, 164, 204, 148, 149, 54, 146, 193]

def flaggedSplit : Index := ⟨.sha1, .v2, none, [], [⟨.link, flaggedId ++ emptyBitmaps⟩]⟩

def flaggedStandalone : Index := ⟨.sha1, .v2, none, [sampleEntry "a" true], []⟩

def flaggedDigests : Digests := Proofs.recordedDigests [(flaggedBase.content, flaggedId),
  (flaggedSplit.content, [7, 193, 239, 109, 53, 131, 219, 227, 172, 245, 189, 211, 153, 244, 140, 230, 189, 28, 122, 144]),
  (flaggedStandalone.content,
    [153, 206, 211, 13, 214, 187, 243, 140, 210, 180, 223, 176, 145, 86, 147, 32, 60, 81, 111, 7])]

def flaggedResolved : Index :=
  { flaggedSplit with original := some (flaggedSplit.encoded flaggedDigests), entries := [sampleEntry "a" true] }

lemma flaggedResolved_held : Reachable flaggedDigests flaggedResolved := by
  have hpar : Index.parseWithShared flaggedDigests .sha1 (flaggedSplit.encoded flaggedDigests)
      (some (flaggedBase.encoded flaggedDigests)) sampleLimits = .ok flaggedResolved := by
    decide +kernel
  exact .parsed hpar

lemma makeStandalone_flagged :
    (Edit.makeStandalone sampleLimits).apply flaggedResolved = .ok flaggedStandalone := by
  decide +kernel

/-- Making the split index standalone keeps version 2 and the extended flags of the shared entry.
The index encodes, and what it encodes to is refused. -/
theorem standalone_unreadable :
    Reachable flaggedDigests flaggedStandalone ∧
      ∃ bytes, flaggedStandalone.encode flaggedDigests sampleLimits = .ok bytes ∧
      Index.parse flaggedDigests .sha1 bytes sampleLimits =
      .error (.entry 0 "extended flags unsupported in v2") :=
  ⟨.edited flaggedResolved_held makeStandalone_flagged, flaggedStandalone.encoded flaggedDigests,
    by decide +kernel,
    by decide +kernel⟩

/-! ## Split indexes -/

/-- What an edit must not do to an index that names a shared file: change stat data, drop caches
and the retained bytes but keep the link, or become standalone in a version that cannot hold the
flags of the shared entries. -/
def Edit.Safe (index : Index) : Edit → Prop
  | .makeStandalone _ => index.sharedIndexId ≠ none → index.Representable
  | .discardOptionalExtensions _ _ => index.sharedIndexId ≠ none → index.Representable
  | .smudgeRacyEntries threshold verified =>
    index.sharedIndexId ≠ none → Index.smudgeFrom threshold 0 verified index.entries = index.entries
  | .recordStat verified _ => index.sharedIndexId ≠ none → verified = []
  | .discardCheckoutCaches => index.sharedIndexId = none
  | _ => True

/-- Runs of edits on a held index; a draft that replaces it is one its version can hold. -/
inductive SafeRun (digests : Digests) (start : Index) : Index → Prop
  | refl : SafeRun digests start start
  | edit {index next : Index} {edit : Edit} (run : SafeRun digests start index) (safe : edit.Safe index)
      (h : edit.apply index = .ok next) : SafeRun digests start next
  | replace {index draft next : Index} {lim : Limits} (run : SafeRun digests start index)
      (supplied : Reachable digests draft) (safe : draft.Representable)
      (h : index.replaceIndex draft lim = .ok next) : SafeRun digests start next

lemma representable_iff : index.Representable ↔
    (index.version = .v2 → ∀ ent ∈ index.entries.map Entry.unstamped, ent.extended = false) := by
  simp only [List.forall_mem_map]
  exact Iff.rfl

lemma settled_congr {next : Index} (hid : next.sharedIndexId = index.sharedIndexId)
    (hver : next.version = index.version)
    (hens : next.entries.map Entry.unstamped = index.entries.map Entry.unstamped) :
    next.Settled ↔ index.Settled := by
  rw [Index.Settled, Index.Settled, representable_iff, representable_iff, hid, hver, hens]

lemma has_retain_eq_false {sig : Signature} (h : index.has sig = false)
    (keep : Signature → Bool) : (index.retain keep).has sig = false := by
  rw [Bool.eq_false_iff] at h ⊢
  intro hhas
  obtain ⟨ext, hmem, hsig⟩ := has_eq_true.mp hhas
  exact h (has_eq_true.mpr ⟨ext, List.mem_of_mem_filter hmem, hsig⟩)

lemma invalidateExtensions_eq_ok {next : Index} {retainTree : Bool}
    (h : index.invalidateExtensions retainTree = .ok next) :
    next.sharedIndexId = none ∧ next.entries = index.entries ∧ next.version = index.version := by
  obtain ⟨_, -, h⟩ := bind_ok.mp h
  cases h
  have hlink : (index.retain (fun sig => sig = .reuc || (retainTree && sig = .tree))).has .link = false := by
    rw [Bool.eq_false_iff]
    intro hhas
    obtain ⟨ext, hmem, hsig⟩ := has_eq_true.mp hhas
    have hkept := (List.mem_filter.mp hmem).2
    rw [hsig] at hkept
    cases retainTree <;> cases hkept
  have hsparse : Signature.sdir ≠ .link := by decide
  unfold Index.markSparse
  split
  · exact ⟨sharedIndexId_of_has (by simpa [Index.has, Index.push, hsparse] using hlink), rfl, rfl⟩
  · exact ⟨sharedIndexId_of_has hlink, rfl, rfl⟩

section Steps

variable {index next : Index} {lim : Limits}

/-- Whether an edit that succeeds leaves an index that is read back from its own bytes. -/
def Edit.Settles (index : Index) : Edit → Prop
  | .setVersion version _ => version ≠ index.version ∨ index.Settled
  | .replaceEntries entries _ => sortEntries entries ≠ index.entries ∨ index.Settled
  | .replaceEntriesReusingStat entries _ => sortEntries (index.reusingStat entries) ≠ index.entries ∨ index.Settled
  | .makeStandalone _ => index.Representable
  | .discardOptionalExtensions sigs _ => index.Representable ∧ (index.sharedIndexId = none ∨
      index.extensions.any (fun extension => sigs.contains extension.signature) = true)
  | _ => index.Settled

lemma settles_of_settled (h : index.Settled) (edit : Edit) : edit.Settles index := by
  cases edit with
  | setVersion | replaceEntries | replaceEntriesReusingStat => exact .inr h
  | makeStandalone => exact h.2
  | discardOptionalExtensions => exact ⟨h.2, .inl h.1⟩
  | _ => exact h

lemma makeStandalone_settled (h : index.makeStandalone lim = .ok next) :
    (next.Settled ↔ index.Representable) := by
  obtain ⟨⟨⟩, -, h⟩ := bind_ok.mp h
  split at h
  · obtain ⟨repl, hrep, h⟩ := bind_ok.mp h
    obtain ⟨hnone, hens, hver⟩ := invalidateExtensions_eq_ok hrep
    rw [fitting_eq_ok h, Index.Settled, Index.Representable, hens, hver]
    exact and_iff_right hnone
  · rename_i hlink
    rw [fitting_eq_ok h]
    exact and_iff_right (sharedIndexId_of_has (Bool.eq_false_iff.mpr hlink))

lemma setVersion_cases {ver : Version} (h : index.setVersion ver lim = .ok next) :
    ver = index.version ∧ next = index ∨ ver ≠ index.version ∧ next.Settled := by
  obtain ⟨⟨⟩, hflag, h⟩ := bind_ok.mp h
  split at h
  · rename_i hver
    exact .inl ⟨hver, fitting_eq_ok h⟩
  rename_i hver
  obtain ⟨repl, hrep, h⟩ := bind_ok.mp h
  obtain ⟨hnone, hens, -⟩ := invalidateExtensions_eq_ok hrep
  rw [fitting_eq_ok h]
  refine .inr ⟨hver, hnone, ?_⟩
  intro hver ent hen
  rw [hens] at hen
  rw [Bool.eq_false_iff]
  intro hext
  exact reject_ok.mp hflag ⟨hver, List.any_eq_true.mpr ⟨ent, hen, hext⟩⟩

lemma replaceEntries_cases {ents : List Entry} (h : index.replaceEntries ents lim = .ok next) :
    sortEntries ents = index.entries ∧ next = index ∨
      sortEntries ents ≠ index.entries ∧ next.Settled := by
  obtain ⟨⟨⟩, -, h⟩ := bind_ok.mp h
  obtain ⟨⟨⟩, -, h⟩ := bind_ok.mp h
  split at h
  · rename_i hens
    exact .inl ⟨hens, fitting_eq_ok h⟩
  rename_i hdiff
  obtain ⟨repl, hrep, h⟩ := bind_ok.mp h
  obtain ⟨hnone, hens, hver⟩ := invalidateExtensions_eq_ok hrep
  rw [fitting_eq_ok h]
  refine .inr ⟨hdiff, hnone, ?_⟩
  intro hv2 ent hen
  rw [hver] at hv2
  rw [hens] at hen
  rw [Bool.eq_false_iff]
  intro hext
  have hany : (sortEntries ents).any Entry.extended :=
    List.any_eq_true.mpr ⟨ent, hen, hext⟩
  by_cases hold : index.version = .v2
  · simp [hold, hany] at hv2
  · simp [hold] at hv2

lemma Kept.settled (h : Kept index next) : next.Settled ↔ index.Settled := by
  induction h with
  | same => rfl
  | restat hens => exact settled_congr rfl rfl hens
  | @retain keep _ hlink =>
    refine settled_congr ?_ rfl rfl
    rcases hlink with hkeep | hhas
    · exact sharedIndexId_retain hkeep
    · rw [sharedIndexId_of_has hhas, sharedIndexId_of_has (has_retain_eq_false hhas keep)]
  | @push next sig data _ hopt _ ih =>
    have hlink : sig ≠ .link := by
      rintro rfl
      cases hopt
    exact (settled_congr (sharedIndexId_push hlink data) rfl rfl).trans ih

lemma discardOptionalExtensions_settled {sigs : List Signature} {lim : Limits}
    (h : index.discardOptionalExtensions sigs lim = .ok next) :
    next.Settled ↔ (Edit.discardOptionalExtensions sigs lim).Settles index := by
  unfold Index.discardOptionalExtensions at h
  simp only [Edit.Settles]
  split at h
  · cases h
  split at h
  · rename_i hany
    rw [hany]
    simp only [or_true, and_true] at h ⊢
    split at h
    · exact (makeStandalone_settled h).trans Iff.rfl
    · rename_i hlink
      rw [fitting_eq_ok h]
      exact and_iff_right (sharedIndexId_of_has (Bool.eq_false_iff.mpr hlink))
  · rename_i hany
    cases h
    rw [Bool.eq_false_iff.mpr hany, Index.Settled, and_comm]
    simp

lemma edit_settled_iff (edit : Edit) (h : edit.apply index = .ok next) :
    next.Settled ↔ edit.Settles index := by
  cases edit with
  | setVersion ver lim =>
    rcases setVersion_cases h with ⟨hver, rfl⟩ | ⟨hver, hset⟩
    · simp [Edit.Settles, hver]
    · simp [Edit.Settles, hver, hset]
  | replaceEntries ents lim | replaceEntriesReusingStat ents lim =>
    rcases replaceEntries_cases h with ⟨hens, rfl⟩ | ⟨hens, hset⟩
    · simp [Edit.Settles, hens]
    · simp [Edit.Settles, hens, hset]
  | makeStandalone lim => exact makeStandalone_settled h
  | discardOptionalExtensions sigs lim => exact discardOptionalExtensions_settled h
  | _ => exact (kept_of_apply _ rfl h).settled

/-- A safe edit leaves an index as it is or makes it standalone. -/
lemma edit_cases (edit : Edit) (hheld : index.sharedIndexId = none → index.Representable)
    (hsafe : edit.Safe index) (h : edit.apply index = .ok next) : next = index ∨ next.Settled := by
  by_cases hset : edit.Settles index
  · exact .inr ((edit_settled_iff edit h).mpr hset)
  -- then the index names a shared file, and what the edit must not do is not done
  have hshare : index.sharedIndexId ≠ none :=
    fun hnone => hset (settles_of_settled ⟨hnone, hheld hnone⟩ edit)
  have href : ∀ {allowed : List Signature} {u : Unit}, index.refuse allowed = .ok u →
      Signature.link ∈ allowed :=
    fun hrefuse => by_contra fun hlink => hshare (sharedIndexId_of_has (has_eq_false_of_refuse hrefuse hlink))
  cases edit with
  | setVersion ver lim => exact (setVersion_cases h).imp And.right And.right
  | replaceEntries ents lim | replaceEntriesReusingStat ents lim =>
    exact (replaceEntries_cases h).imp And.right And.right
  | makeStandalone lim => exact absurd (hsafe hshare) hset
  | discardOptionalExtensions sigs lim =>
    have hany : ¬index.extensions.any (sigs.contains ·.signature) :=
      fun hany => hset ⟨hsafe hshare, .inr hany⟩
    change index.discardOptionalExtensions sigs lim = .ok next at h
    unfold Index.discardOptionalExtensions at h
    split at h
    · cases h
    · rw [if_neg hany] at h
      cases h
      exact .inl rfl
  | smudgeRacyEntries thr verified =>
    cases h
    simp [Index.smudgeRacyEntries, hsafe hshare]
  | recordStat verified started =>
    cases h
    simp [Index.recordStat, hsafe hshare]
  | discardCheckoutCaches => exact absurd hsafe hshare
  | _ => exact absurd (href (bind_ok.mp h).choose_spec.1) (by decide)

end Steps

/-! ## Runs of edits -/

lemma get_eq : (get : EStateM Error Index Index) index = .ok index index := rfl

lemma perform_error {edit : Edit} {error : Error} (h : edit.apply index = .error error) :
    edit.perform index = .error error index := by
  simp only [Edit.perform, bind, EStateM.bind, get_eq, h]
  rfl

lemma perform_ok {edit : Edit} {next : Index} (h : edit.apply index = .ok next) :
    edit.perform index = .ok () next := by
  simp only [Edit.perform, bind, EStateM.bind, get_eq, h]
  rfl

lemma reachable_after (held : Reachable digests index) (edits : List Edit) :
    Reachable digests (edits.foldl Edit.after index) := by
  induction edits generalizing index with
  | nil => exact held
  | cons edit edits ih =>
    refine ih ?_
    cases h : edit.apply index with
    | ok next =>
      rw [Edit.after, perform_ok h]
      exact .edited held h
    | error error =>
      rw [Edit.after, perform_error h]
      exact held

/-- After any sequence of edits, the next one leaves the index as it was, or gives an index with
valid entries whose encoding is read back as the same index exactly when the edit settles it. An
edit settles every index that is settled already. -/
theorem edits_read_back_iff {start : Index} (held : Reachable digests start) (edits : List Edit) (edit : Edit) :
    let index := edits.foldl Edit.after start
    (∀ error, edit.apply index = .error error → edit.perform index = .error error index) ∧
    (∀ next, edit.apply index = .ok next → edit.perform index = .ok () next ∧
      (∃ limits, validateEntries next.format next.entries limits = .ok ()) ∧
      ∀ limits length, next.encodedLen limits = .ok length → ∃ bytes, next.encode digests limits = .ok bytes ∧
        ((∃ parsed, Index.parse digests next.format bytes limits = .ok parsed ∧ parsed.Same next) ↔
          edit.Settles index)) ∧
    (index.Settled → edit.Settles index) := by
  have hidx := reachable_after held edits
  refine ⟨fun error h => perform_error h, fun next h => ⟨perform_ok h, ?_, ?_⟩,
    fun hset => settles_of_settled hset edit⟩
  · exact (reachable_sound (.edited hidx h)).valid
  · intro limits length hlen
    obtain ⟨henc, hiff⟩ := read_back (.edited hidx h) hlen
    exact ⟨_, henc, hiff.trans (edit_settled_iff edit h)⟩

theorem edits_read_back_compressed :
    ∃ bytes parsed, compressedIndex.encode compressedDigests sampleLimits = .ok bytes ∧
      Index.parse compressedDigests .sha1 bytes sampleLimits = .ok parsed ∧
      parsed.Same compressedIndex := by
  have hver : (Edit.setVersion .v4 sampleLimits).apply ([Edit.replaceEntries
      [sampleEntry "ab" true, sampleEntry "a" false] sampleLimits].foldl Edit.after (.empty .sha1)) =
        .ok compressedIndex := by decide +kernel
  obtain ⟨-, hnext, -⟩ := edits_read_back_iff (@Reachable.empty compressedDigests .sha1)
    [.replaceEntries [sampleEntry "ab" true, sampleEntry "a" false] sampleLimits] (.setVersion .v4 sampleLimits)
  obtain ⟨bytes, henc, hiff⟩ := (hnext _ hver).2.2 sampleLimits 164 (by decide +kernel)
  obtain ⟨parsed, hpar, hsame⟩ := hiff.mpr (.inl (by decide +kernel))
  exact ⟨bytes, parsed, henc, hpar, hsame⟩

/-- The split index is valid and is made standalone without an error, but the encoding of what it
becomes is refused. -/
theorem makeStandalone_unreadable :
    Reachable flaggedDigests flaggedResolved ∧
      (Edit.makeStandalone sampleLimits).apply flaggedResolved = .ok flaggedStandalone ∧
      ∃ bytes, flaggedStandalone.encode flaggedDigests sampleLimits = .ok bytes ∧
      Index.parse flaggedDigests .sha1 bytes sampleLimits =
      .error (.entry 0 "extended flags unsupported in v2") :=
  ⟨flaggedResolved_held, makeStandalone_flagged, flaggedStandalone.encoded flaggedDigests,
    by decide +kernel,
    by decide +kernel⟩

/-! ## Publishing -/

lemma representable_of_parse (h : Index.parseWithShared digests format bytes shared lim = .ok index)
    (hnone : index.sharedIndexId = none) : index.Representable :=
  (parseFile_eq_ok (parseFile_of_parse h hnone)).1.unextended

lemma original_of_parse (h : Index.parseWithShared digests format bytes shared lim = .ok index) :
    index.original = some bytes ∧ index.format = format := by
  obtain ⟨file, hfile, h⟩ := bind_ok.mp h
  obtain ⟨hread, -, -⟩ := parseFile_eq_ok hfile
  obtain ⟨-, hres⟩ := resolveWith_eq_ok h
  rcases hres with ⟨-, rfl, -⟩ | ⟨id, base, -, -, -, hsame⟩
  · exact ⟨hread.original_eq, hread.format_eq⟩
  · rw [hsame]
    exact ⟨hread.original_eq, hread.format_eq⟩

lemma encodedLen_of_encode (h : index.encode digests lim = .ok bytes) :
    ∃ length, index.encodedLen lim = .ok length ∧ bytes = index.encoded digests := by
  obtain ⟨length, hlen, -⟩ := bind_ok.mp h
  refine ⟨length, hlen, ?_⟩
  have := @encode_eq_ok digests _ _ _ hlen
  rw [h] at this
  cases this
  rfl

lemma run_cases {start : Index} (held : Reachable digests start)
    (hst : start.sharedIndexId = none → start.Representable) (run : SafeRun digests start index) :
    Reachable digests index ∧ (index = start ∨ index.Settled) := by
  induction run with
  | refl => exact ⟨held, .inl rfl⟩
  | edit _ safe h ih =>
    refine ⟨.edited ih.1 h, ?_⟩
    rcases ih.2 with rfl | hset
    · exact edit_cases _ hst safe h
    · rcases edit_cases _ (fun _ => hset.2) safe h with rfl | hnext
      · exact .inr hset
      · exact .inr hnext
  | replace _ supplied safe h ih =>
    refine ⟨.replaced ih.1 supplied h, ?_⟩
    obtain ⟨⟨⟩, -, h⟩ := bind_ok.mp h
    obtain ⟨⟨⟩, hlink, h⟩ := bind_ok.mp h
    rw [fitting_eq_ok h]
    exact .inr ⟨sharedIndexId_of_has (Bool.eq_false_iff.mpr (reject_ok.mp hlink)), safe⟩

/-- The same entry, or the entry with its size smudged to zero. -/
def Smudged (entry pub : Entry) : Prop :=
  pub = entry ∨ pub = { entry with stat := { entry.stat with size := 0 } }

lemma smudgeFrom_smudged (thr : Timestamp) (ents : List Entry) (pos : Nat) (ver : List Nat) :
    List.Forall₂ Smudged ents (Index.smudgeFrom thr pos ver ents) := by
  induction ents generalizing pos ver with
  | nil => exact .nil
  | cons ent ents ih =>
    rw [Index.smudgeFrom]
    split
    · exact .cons (.inl rfl) (ih _ _)
    refine .cons ?_ (ih _ _)
    unfold Index.smudge
    split
    · exact .inr rfl
    · exact .inl rfl

/-- A split index that was resolved with a shared file, edited and published: as long as no edit
and no smudging changes it while it still names the shared file, and it becomes standalone only in
a version that can hold its flags, the published bytes resolve with the same shared file to the
entries in memory, up to sizes smudged to zero. -/
theorem published_resolves {format : ObjectFormat} {bytes shared published : Bytes} {limits : Limits}
    {start index : Index} {threshold : Timestamp} {verified : List Nat}
    (hstart : Index.parseWithShared digests format bytes (some shared) limits = .ok start)
    (run : SafeRun digests start index)
    (hsafe : (Edit.smudgeRacyEntries threshold verified).Safe index)
    (hpublish : index.publish digests threshold verified limits = .ok published) :
    ∃ parsed, Index.parseWithShared digests index.format published (some shared) limits = .ok parsed ∧
      List.Forall₂ Smudged index.entries parsed.entries := by
  have hread := representable_of_parse hstart
  obtain ⟨held, hcas⟩ := run_cases (.parsed hstart) hread run
  have hheld : index.sharedIndexId = none → index.Representable := by
    rcases hcas with rfl | hset
    · exact hread
    · exact fun _ => hset.2
  have hsmu : List.Forall₂ Smudged index.entries (index.smudgeRacyEntries threshold verified).entries := by
    rw [smudgeRacyEntries_entries]
    exact smudgeFrom_smudged threshold index.entries 0 verified
  have hsound := reachable_sound (.edited held (show (Edit.smudgeRacyEntries threshold verified).apply index = .ok _ from rfl))
  have hform : (index.smudgeRacyEntries threshold verified).format = index.format := by
    simp only [Index.smudgeRacyEntries]
    split <;> rfl
  obtain ⟨length, hlen, rfl⟩ := encodedLen_of_encode hpublish
  have hfin : index.smudgeRacyEntries threshold verified = start ∨
      (index.smudgeRacyEntries threshold verified).Settled := by
    rcases edit_cases (.smudgeRacyEntries threshold verified) hheld hsafe rfl with hsame | hset
    · rw [hsame]
      exact hcas
    · exact .inr hset
  rw [← hform]
  rcases hfin with hsame | ⟨hnone, hrep⟩
  · obtain ⟨horg, rfl⟩ := original_of_parse hstart
    refine ⟨start, ?_, hsame ▸ hsmu⟩
    rw [hsame, Index.encoded, horg]
    exact hstart
  · refine ⟨_, bind_ok.mpr ⟨_, parseFile_encoded hsound hlen hnone hrep,
      resolve_encoded hsound hlen hnone _⟩, hsmu⟩

/-- A shared file with one entry, an index that links to it, and what is published once the size
of the entry is smudged. -/
def plainBase : Index := ⟨.sha1, .v2, none, [sampleEntry "a" false], []⟩

def plainId : Bytes := [103, 244, 99, 34, 119, 115, 157, 29, 218, 165, 213, 167, 161, 78, 157, 151, 230, 174, 223, 251]

def plainSplit : Index := ⟨.sha1, .v2, none, [], [⟨.link, plainId ++ emptyBitmaps⟩]⟩

def smudgedSplit : Index :=
  { plainSplit with entries := [Index.smudge ⟨0, 0⟩ (sampleEntry "a" false)] }

def plainDigests : Digests := Proofs.recordedDigests [(plainBase.content, plainId),
  (plainSplit.content, [15, 228, 211, 243, 205, 57, 1, 250, 41, 254, 47, 74, 176, 104, 184, 59, 76, 219, 219, 176]),
  (smudgedSplit.content, [123, 154, 13, 158, 191, 104, 51, 50, 150, 120, 107, 25, 190, 120, 85, 74, 31, 195, 151, 15])]

def plainResolved : Index :=
  { plainSplit with original := some (plainSplit.encoded plainDigests), entries := [sampleEntry "a" false] }

lemma plainResolved_eq : Index.parseWithShared plainDigests .sha1 (plainSplit.encoded plainDigests)
    (some (plainBase.encoded plainDigests)) sampleLimits = .ok plainResolved := by
  decide +kernel

theorem published_resolves_unchanged : ∃ published parsed,
    plainResolved.publish plainDigests ⟨11, 0⟩ [] sampleLimits = .ok published ∧
      Index.parseWithShared plainDigests .sha1 published (some (plainBase.encoded plainDigests)) sampleLimits = .ok parsed ∧
      List.Forall₂ Smudged plainResolved.entries parsed.entries := by
  have hpub : plainResolved.publish plainDigests ⟨11, 0⟩ [] sampleLimits =
      .ok (plainSplit.encoded plainDigests) := by decide +kernel
  obtain ⟨parsed, hpar, hens⟩ :=
    published_resolves plainResolved_eq .refl (fun _ => by decide +kernel) hpub
  exact ⟨_, parsed, hpub, hpar, hens⟩

/-- Nothing is edited, but the entry is racily clean. Its size is smudged, the full entry list is
written next to the link, and the published bytes no longer resolve with the shared file. -/
theorem published_split_unreadable :
    Index.parseWithShared plainDigests .sha1 (plainSplit.encoded plainDigests)
        (some (plainBase.encoded plainDigests)) sampleLimits = .ok plainResolved ∧
      ∃ published, plainResolved.publish plainDigests ⟨10, 0⟩ [] sampleLimits = .ok published ∧
        Index.parseWithShared plainDigests .sha1 published (some (plainBase.encoded plainDigests)) sampleLimits =
          .error (.entry 1 "unsorted or duplicate path/stage") :=
  ⟨plainResolved_eq, smudgedSplit.encoded plainDigests, by decide +kernel, by decide +kernel⟩

end Girt.IndexFile
