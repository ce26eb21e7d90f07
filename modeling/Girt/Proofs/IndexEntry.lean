import Girt.Index.Codec

/-!
# Reading back one index entry

What the reader finds at each place is what the writer put there.
-/

namespace Girt.IndexFile
open ByteLib List

variable (ver : Version) (prev : Bytes) (ent : Entry) (version : Version) (previous : Bytes)

@[simp] lemma putWord_length (val : UInt32) : (putWord val).length = 4 := by
  simp [putWord]

lemma putWord_ofNat {n : Nat} (h : n < 2 ^ 32) : putWord (UInt32.ofNat n) = beBytes 4 n := by
  rw [putWord, UInt32.toNat_ofNat', Nat.mod_eq_of_lt h]

lemma beNat_putWord (value : UInt32) : UInt32.ofNat (beNat (putWord value)) = value := by
  rw [putWord, beNat_beBytes (by simpa using value.toNat_lt)]
  exact UInt32.ofNat_toNat

lemma word_eq_ok {bytes : Bytes} {offset : Nat} {value : UInt32} :
    word bytes offset = .ok value ↔ (bytes.drop offset).take 4 = putWord value := by
  constructor
  · intro h
    simp only [word, bind_ok, reject_ok, not_not, exists_and_left, exists_const] at h
    obtain ⟨hlen, h⟩ := h
    have hlt : beNat ((bytes.drop offset).take 4) < 2 ^ 32 := by
      have := beNat_lt ((bytes.drop offset).take 4)
      rw [hlen] at this
      exact this
    cases h
    rw [putWord_ofNat hlt, beBytes_beNat hlen]
  · intro h
    simp only [word, h, beNat_putWord]
    rfl

lemma drop_putWord (val : UInt32) (rest : Bytes) (n : Nat) :
    (putWord val ++ rest).drop (n + 4) = rest.drop n := by
  simp [drop_append]

lemma words_length : (ent.words.flatMap putWord).length = 40 := by
  simp [Entry.words, putWord_length]

lemma readStat_words (entry : Entry) (rest : Bytes) :
    readStat (entry.words.flatMap putWord ++ rest) = .ok entry.stat := by
  have hread : ∀ {offset : Nat} {value : UInt32},
      ((entry.words.flatMap putWord ++ rest).drop offset).take 4 = putWord value →
        word (entry.words.flatMap putWord ++ rest) offset = .ok value := fun h => word_eq_ok.mpr h
  have h0 := @hread 0 entry.stat.ctime.seconds ?_
  have h4 := @hread 4 entry.stat.ctime.nanoseconds ?_
  have h8 := @hread 8 entry.stat.mtime.seconds ?_
  have h12 := @hread 12 entry.stat.mtime.nanoseconds ?_
  have h16 := @hread 16 entry.stat.device ?_
  have h20 := @hread 20 entry.stat.inode ?_
  have h28 := @hread 28 entry.stat.uid ?_
  have h32 := @hread 32 entry.stat.gid ?_
  have h36 := @hread 36 entry.stat.size ?_
  · simp only [readStat, h0, h4, h8, h12, h16, h20, h28, h32, h36]
    rfl
  all_goals
    simp [Entry.words, drop_putWord]

lemma mode_words (entry : Entry) (rest : Bytes) :
    word (entry.words.flatMap putWord ++ rest) 24 = .ok entry.mode.word := by
  apply word_eq_ok.mpr
  simp [Entry.words, drop_putWord]

/-! ## Flags -/

lemma flags_fields :
    ent.flags / 0x8000 % 2 = ent.assumeValid.toNat ∧ ent.flags / 0x4000 % 2 = ent.extended.toNat ∧
      ent.flags / 0x1000 % 4 = ent.stage.toNat ∧ ent.flags % 0x1000 = min ent.path.length 0xfff ∧
      ent.flags < 256 ^ 2 := by
  have hsta := ent.stage.toNat_lt
  have hvd : ent.assumeValid.toNat ≤ 1 := Bool.toNat_le _
  have hext : ent.extended.toNat ≤ 1 := Bool.toNat_le _
  unfold Entry.flags
  omega

lemma extendedFlags_fields :
    ent.extendedFlags / 0x2000 % 2 = ent.intentToAdd.toNat ∧
      ent.extendedFlags / 0x4000 % 2 = ent.skipWorktree.toNat ∧
      ent.extendedFlags % 0x2000 = 0 ∧ ent.extendedFlags < 0x8000 := by
  have hint : ent.intentToAdd.toNat ≤ 1 := Bool.toNat_le _
  have hskip : ent.skipWorktree.toNat ≤ 1 := Bool.toNat_le _
  unfold Entry.extendedFlags
  omega

lemma decide_toNat (b : Bool) : decide (b.toNat = 1) = b := by
  cases b <;> rfl

lemma readExtendedFlags_written {ver : Version} {ent : Entry} (hver : ver = .v2 → ent.extended = false)
    (pos off : Nat) (rest : Bytes) :
    readExtendedFlags ver pos off ent.flags
      ((if ent.extended then beBytes 2 ent.extendedFlags else []) ++ rest) = .ok (ent.extendedFlags, rest) := by
  obtain ⟨-, hfie, -⟩ := flags_fields ent
  obtain ⟨-, -, hlow, hhigh⟩ := extendedFlags_fields ent
  cases hext : ent.extended with
  | true =>
    have hv : ver ≠ .v2 := fun h => by simp [hver h] at hext
    have htake : (beBytes 2 ent.extendedFlags ++ rest).take 2 = beBytes 2 ent.extendedFlags := by
      simp
    have hdrop : (beBytes 2 ent.extendedFlags ++ rest).drop 2 = rest := by
      simp
    have hval : beNat (beBytes 2 ent.extendedFlags) = ent.extendedFlags :=
      beNat_beBytes (by omega)
    rw [readExtendedFlags, if_pos (by rw [hfie, hext]; rfl), if_pos rfl, htake, hdrop, hval]
    refine reject_bind.mpr ⟨hv, reject_bind.mpr ⟨?_, ?_⟩⟩
    · rw [length_append, beBytes_length]
      omega
    · exact reject_bind.mpr ⟨(by omega), rfl⟩
  | false =>
    have hnone : ent.intentToAdd = false ∧ ent.skipWorktree = false := by
      simpa [Entry.extended] using hext
    have hzero : ent.extendedFlags = 0 := by
      simp [Entry.extendedFlags, hnone.1, hnone.2]
    rw [readExtendedFlags, if_neg (by rw [hfie, hext]; decide), hzero]
    rfl

/-! ## Paths -/

lemma commonPrefix_spec (left right : Bytes) :
    commonPrefix left right ≤ left.length ∧ commonPrefix left right ≤ right.length ∧
      left.take (commonPrefix left right) = right.take (commonPrefix left right) := by
  fun_induction commonPrefix left right with
  | case1 a left right ih => simpa using ih
  | case2 a left b right h | case3 left right h => simp

lemma readVarint_of_readVarintFrom {bs rest : Bytes} {start val : Nat} (off : Nat)
    (h : ByteLib.readVarintFrom start bs = some (val, rest)) (hval : val ≤ usizeMax) :
    start + 1 ≤ usizeMax ∧ readVarint off (start + 1) bs = .ok (val, rest) := by
  induction bs generalizing start off with
  | nil => cases h
  | cons byte bs ih =>
    rw [ByteLib.readVarintFrom] at h
    by_cases hbyte : 128 ≤ byte.toNat
    · rw [if_pos hbyte] at h
      obtain ⟨hbd, hread⟩ := ih (off + 1) h
      refine ⟨by omega, ?_⟩
      refine reject_bind.mpr ⟨(by omega), ?_⟩
      rw [if_neg (by omega)]
      exact reject_bind.mpr ⟨(by omega), hread⟩
    · rw [if_neg hbyte] at h
      cases h
      refine ⟨by omega, ?_⟩
      refine reject_bind.mpr ⟨(by omega), ?_⟩
      rw [if_pos (by omega)]

lemma readVarint_written {val : Nat} (h : val ≤ usizeMax) (off : Nat) (rest : Bytes) :
    readVarint off 0 (offsetVarint val ++ rest) = .ok (val, rest) := by
  have hread := readOffsetVarint_offsetVarint val rest
  cases hbs : offsetVarint val ++ rest with
  | nil => simp [hbs, readOffsetVarint] at hread
  | cons byte bs =>
    rw [hbs, readOffsetVarint] at hread
    by_cases hbyte : 128 ≤ byte.toNat
    · rw [if_pos hbyte] at hread
      obtain ⟨hbd, hnext⟩ := readVarint_of_readVarintFrom (off + 1) hread h
      refine reject_bind.mpr ⟨(by omega), ?_⟩
      rw [if_neg (by omega)]
      refine reject_bind.mpr ⟨(by omega), ?_⟩
      rw [Nat.zero_mul, Nat.zero_add]
      exact hnext
    · rw [if_neg hbyte] at hread
      cases hread
      refine reject_bind.mpr ⟨(by omega), ?_⟩
      rw [if_pos (by omega)]
      congr 2
      omega

lemma readSuffixLen_written {lim : Limits} {kept : Nat} {suf : Bytes} (hzero : 0 ∉ suf)
    (hlen : suf.length ≤ lim.maxPathBytes - kept) (off : Nat) (rest : Bytes) :
    readSuffixLen lim off kept (suf ++ 0 :: rest) = .ok suf.length := by
  apply orError_eq_ok.mpr
  obtain ⟨more, hmore⟩ : ∃ more, lim.maxPathBytes - kept + 1 = suf.length + (more + 1) :=
    ⟨lim.maxPathBytes - kept - suf.length, by omega⟩
  rw [hmore, take_length_add_append, take_succ_cons, idxOf?_eq_some_iff]
  refine ⟨by simp, by simp, ?_⟩
  intro j hj
  rw [getElem_append_left hj]
  exact fun h => hzero (by simp [← h])

/-- How much of the previous path an entry keeps, and how the file says so. -/
def keptOf (entry : Entry) : Nat :=
  if version = .v4 then commonPrefix previous entry.path else 0

def keptBytes (entry : Entry) : Bytes :=
  if version = .v4 then offsetVarint (previous.length - commonPrefix previous entry.path) else []

lemma keptOf_le : keptOf ver prev ent ≤ ent.path.length := by
  unfold keptOf
  split
  · exact (commonPrefix_spec prev ent.path).2.1
  · omega

lemma path_kept :
    prev.take (keptOf ver prev ent) ++ ent.path.drop (keptOf ver prev ent) = ent.path := by
  unfold keptOf
  split
  · rw [(commonPrefix_spec prev ent.path).2.2, take_append_drop]
  · simp

lemma readKept_written {ver : Version} {prev : Bytes} (hprev : prev.length ≤ usizeMax) (ent : Entry)
    (off : Nat) (rest : Bytes) :
    readKept ver off prev (keptBytes ver prev ent ++ rest) =
      .ok (keptOf ver prev ent, rest) := by
  have hcommon := (commonPrefix_spec prev ent.path).1
  unfold readKept keptBytes keptOf
  by_cases hver : ver = .v4
  · rw [if_pos hver, if_pos hver, if_pos hver]
    refine bind_ok.mpr ⟨_, readVarint_written (by omega) off rest, ?_⟩
    refine reject_bind.mpr ⟨(by omega), ?_⟩
    congr 2
    omega
  · rw [if_neg hver, if_neg hver, if_neg hver]
    rfl

lemma fixedBytes_length (entry : Entry) :
    entry.fixedBytes.length = 42 + entry.id.format.digestLen + flagsLen entry := by
  unfold Entry.fixedBytes flagsLen
  rw [length_append, length_append, length_append, words_length, entry.id.width, beBytes_length]
  split
  · rw [beBytes_length]
    omega
  · rw [length_nil]
    omega

def writtenLength (entry : Entry) : Nat :=
  entry.fixedBytes.length + (keptBytes version previous entry).length +
    (entry.path.length - keptOf version previous entry)

lemma entrySize_eq : entrySize ver prev ent = entryEnd ver (writtenLength ver prev ent + 1) := by
  unfold entrySize entryEnd writtenLength keptBytes keptOf
  rw [fixedBytes_length]
  by_cases hver : ver = .v4
  · simp only [if_pos hver]
    omega
  · simp only [if_neg hver, length_nil]
    omega

lemma writtenLength_lt : writtenLength ver prev ent < entrySize ver prev ent := by
  rw [entrySize_eq, entryEnd]
  split <;> omega

lemma encodeEntry_eq :
    encodeEntry ver prev ent =
      ent.fixedBytes ++ (keptBytes ver prev ent ++ (ent.path.drop (keptOf ver prev ent) ++
        0 :: List.replicate (entrySize ver prev ent - (writtenLength ver prev ent + 1)) 0)) := by
  rw [entrySize_eq]
  unfold encodeEntry
  by_cases hver : ver = .v4
  · simp [keptBytes, keptOf, entryEnd, hver]
  have hsize := entrySize_eq ver prev ent
  have hlen : writtenLength ver prev ent = (ent.fixedBytes ++ ent.path).length := by
    simp [writtenLength, keptBytes, keptOf, hver]
  have hend := writtenLength_lt ver prev ent
  have hzer : entryEnd ver (writtenLength ver prev ent + 1) - (ent.fixedBytes ++ ent.path).length =
      entryEnd ver (writtenLength ver prev ent + 1) - (writtenLength ver prev ent + 1) + 1 := by
    omega
  rw [if_neg hver, resize, hsize, take_of_length_le (by omega), hzer, replicate_succ]
  simp [keptBytes, keptOf, hver]

lemma encodeEntry_length (entry : Entry) :
    (encodeEntry version previous entry).length = entrySize version previous entry := by
  have hend := writtenLength_lt version previous entry
  rw [encodeEntry_eq]
  simp only [length_append, length_cons, length_replicate, length_drop]
  unfold writtenLength at hend ⊢
  omega

/-- An entry is read back exactly, and nothing past it is consumed. -/
theorem parseEntry_written {format : ObjectFormat} {limits : Limits} {version : Version} {previous : Bytes}
    {entry : Entry} (hid : entry.id.format = format) (hpath : entry.path.length ≤ limits.maxPathBytes)
    (hzero : 0 ∉ entry.path) (hver : version = .v2 → entry.extended = false)
    (hprev : previous.length ≤ usizeMax) (position offset : Nat) (rest : Bytes) :
    parseEntry format limits version position offset previous (encodeEntry version previous entry ++ rest) =
      .ok (entry, rest) := by
  subst hid
  have hkept := keptOf_le version previous entry
  -- the parts of the encoding, and what is left of it at each place the reader stops
  set zeros := replicate (entrySize version previous entry - (writtenLength version previous entry + 1)) (0 : UInt8)
    with hzer
  set suffix := entry.path.drop (keptOf version previous entry)
  set fixed := entry.words.flatMap putWord ++ entry.id.bytes
  set second : Bytes := if entry.extended then beBytes 2 entry.extendedFlags else []
  set kept := keptBytes version previous entry
  have hsuffix : suffix.length = entry.path.length - keptOf version previous entry := length_drop
  have hzeros : zeros.length = entrySize version previous entry - (writtenLength version previous entry + 1) :=
    length_replicate
  have hlen : fixed.length = 40 + entry.id.format.digestLen := by
    rw [length_append, words_length, entry.id.width]
  have hwri : writtenLength version previous entry =
      40 + entry.id.format.digestLen + 2 + second.length + kept.length +
      suffix.length := by
    rw [hsuffix, ← hlen, ← beBytes_length 2 entry.flags, ← length_append, ← length_append]
    rfl
  have hend := writtenLength_lt version previous entry
  generalize hbs : encodeEntry version previous entry ++ rest = bytes
  have htot : bytes.length = entrySize version previous entry + rest.length := by
    rw [← hbs, length_append, encodeEntry_length]
  have hstop : bytes.drop (entrySize version previous entry) = rest := by
    rw [← hbs, drop_left' (encodeEntry_length version previous entry)]
  have hparts : bytes = fixed ++ (beBytes 2 entry.flags ++
    (second ++ (kept ++ (suffix ++ 0 :: (zeros ++ rest))))) := by
    rw [← hbs, encodeEntry_eq, Entry.fixedBytes]
    simp only [append_assoc, cons_append]
    rfl
  have htake : bytes.take (40 + entry.id.format.digestLen) = fixed := by
    rw [hparts, take_left' hlen]
  have hdrop : bytes.drop (40 + entry.id.format.digestLen) =
      beBytes 2 entry.flags ++ (second ++ (kept ++ (suffix ++ 0 :: (zeros ++ rest)))) := by
    rw [hparts, drop_left' hlen]
  obtain ⟨hvd, -, hsta, hname, hfl⟩ := flags_fields entry
  have hflag : beNat ((bytes.drop (40 + entry.id.format.digestLen)).take 2) = entry.flags := by
    rw [hdrop]
    simpa using beNat_beBytes hfl
  have hfla : bytes.drop (42 + entry.id.format.digestLen) = second ++
      (kept ++ (suffix ++ 0 :: (zeros ++ rest))) := by
    rw [show 42 + entry.id.format.digestLen = 40 + entry.id.format.digestLen + 2 by omega, ← drop_drop, hdrop]
    simp
  have haf : bytes.drop (writtenLength version previous entry + 1) = zeros ++ rest := by
    have hcut : bytes = (fixed ++ beBytes 2 entry.flags ++ second ++ (kept ++ (suffix ++ [0]))) ++
        (zeros ++ rest) := by
      simp [hparts]
    rw [hcut, drop_left' (by simp only [hwri, length_append, length_singleton, beBytes_length, hlen]; omega)]
  have hst : bytes.length - (suffix ++ 0 :: (zeros ++ rest)).length =
      writtenLength version previous entry - suffix.length := by
    simp only [htot, length_append, length_cons]
    omega
  obtain ⟨hint, hskip, -, -⟩ := extendedFlags_fields entry
  have hroom : suffix.length ≤ limits.maxPathBytes - keptOf version previous entry := by
    omega
  have hname' : keptOf version previous entry + suffix.length = entry.path.length := by
    omega
  have hter : writtenLength version previous entry - suffix.length + suffix.length + 1 =
      writtenLength version previous entry + 1 := by
    omega
  simp only [parseEntry, htake, hflag, hfla]
  refine reject_bind.mpr ⟨(by omega), ?_⟩
  refine bind_ok.mpr ⟨_, mode_words entry _, ?_⟩
  refine bind_ok.mpr ⟨_, orError_eq_ok.mpr (Mode.ofWord_word _), ?_⟩
  refine bind_ok.mpr ⟨_, readExtendedFlags_written hver _ _ _, ?_⟩
  refine bind_ok.mpr ⟨_, readKept_written hprev entry _ _, ?_⟩
  refine bind_ok.mpr ⟨(), checkCount_eq_ok.mpr (by omega), ?_⟩
  refine bind_ok.mpr ⟨suffix.length, readSuffixLen_written (fun h => hzero (mem_of_mem_drop h))
    hroom _ _, ?_⟩
  refine reject_bind.mpr ⟨(by rw [hname, hname']; simp), ?_⟩
  simp only [hst, hter, ← entrySize_eq, haf, hstop]
  refine reject_bind.mpr ⟨(by omega), ?_⟩
  refine reject_bind.mpr ⟨?_, ?_⟩
  · rw [← hzeros, take_left', hzer]
    · simp
    · rfl
  refine bind_ok.mpr ⟨entry.id, orError_eq_ok.mpr ?_, ?_⟩
  · rw [← words_length entry, drop_left']
    · exact ObjectId.fromBytes_bytes entry.id
    · rfl
  refine bind_ok.mpr ⟨_, readStat_words entry _, ?_⟩
  have hpat : previous.take (keptOf version previous entry) ++
      (suffix ++ 0 :: (zeros ++ rest)).take suffix.length = entry.path := by
    rw [take_left' rfl]
    exact path_kept version previous entry
  rw [hpat, hvd, hsta, hint, hskip, Stage.ofBits_toNat, decide_toNat, decide_toNat, decide_toNat]

end Girt.IndexFile
