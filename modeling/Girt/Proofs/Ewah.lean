import Girt.Bitmap.Ewah

/-!
# Compressed bitmaps stand for words

What parsing accepts expands to the words that decoding sums, and what is written expands to its words.
-/

namespace Girt.Bitmap
open ByteLib EwahLib List Nat Option

section Words

def wordsAt (bytes : Bytes) (start count : Nat) : List UInt64 :=
  (List.range count).map fun i => UInt64.ofNat (beNat ((bytes.drop (start + i * 8)).take 8))

variable {bytes : Bytes} {start count : Nat}

@[simp] lemma length_wordsAt : (wordsAt bytes start count).length = count := by simp [wordsAt]

lemma long_eq (hroom : start + count * 8 ≤ bytes.length) {i : Nat} (hi : i < count) :
    ∃ value, long bytes (start + i * 8) = .ok value ∧ (wordsAt bytes start count).drop i =
      value :: (wordsAt bytes start count).drop (i + 1) := by
  have hlt : i < (wordsAt bytes start count).length := by simpa using hi
  refine ⟨_, ?_, drop_eq_getElem_cons hlt⟩
  rw [long, number, if_pos (by omega)]
  simp [wordsAt]

end Words

section Markers

/-- The position of the last marker of a stream that begins at a position. -/
def lastMarkerFrom (position : Nat) (stream : List UInt64) (previous : Nat) : Nat :=
  match stream with
  | [] => previous
  | word :: rest => lastMarkerFrom (position + 1 + literalsOf word) (rest.drop (literalsOf word)) position
termination_by stream.length
decreasing_by
  rw [List.length_drop, List.length_cons]
  omega

variable {bytes : Bytes} {start words limit : Nat}

lemma expand_cons {word : UInt64} {rest : List UInt64} {all : List UInt64} :
    expand (word :: rest) = some all ↔ literalsOf word ≤ rest.length ∧ ∃ more, expand (rest.drop (literalsOf word)) = some more ∧
      all = List.replicate (runOf word) (fill (bitOf word)) ++ rest.take (literalsOf word) ++ more := by
  rw [expand]
  split_ifs with hlit
  · simp only [map_eq_some_iff, hlit, true_and, eq_comm]
  · simp [hlit]

lemma lastWordOf_eq (hroom : start + words * 8 ≤ bytes.length) {position : Nat} {header previous : UInt64}
    (hnext : position + 1 + literalsOf header ≤ words) :
    lastWordOf bytes start (position + 1 + literalsOf header) header previous =
      .ok ((List.replicate (runOf header) (fill (bitOf header)) ++
        ((wordsAt bytes start words).drop (position + 1)).take (literalsOf header)).getLast?.getD previous) := by
  unfold lastWordOf
  split_ifs with hlit hrun
  · have hi : position + literalsOf header < words := by omega
    obtain ⟨value, hval, hdrop⟩ := long_eq hroom hi
    rw [show position + 1 + literalsOf header - 1 = position + literalsOf header by omega, hval]
    have hget : (wordsAt bytes start words)[position + literalsOf header]? = some value := by
      rw [← head?_drop, hdrop, head?_cons]
    have hlast : (((wordsAt bytes start words).drop (position + 1)).take (literalsOf header)).getLast? = some value := by
      rw [getLast?_eq_getElem?, length_take, length_drop, length_wordsAt, getElem?_take_of_lt (by omega),
        getElem?_drop, ← hget]
      congr 1
      omega
    rw [getLast?_append_of_ne_nil _ (fun hnil => by rw [hnil] at hlast; cases hlast), hlast]
    rfl
  · rw [not_not] at hlit
    rw [hlit, take_zero, append_nil, getLast?_replicate, if_neg hrun]
    rfl
  · rw [not_not] at hlit hrun
    rw [hlit, hrun]
    rfl

lemma getLastD_append (a b : List UInt64) (prev : UInt64) :
    (a ++ b).getLast?.getD prev = b.getLast?.getD (a.getLast?.getD prev) := by
  rw [getLast?_append]
  cases b.getLast? <;> rfl

/-- What the markers from a position on announce is what the stream stands for. -/
lemma readMarkers_eq_ok (hroom : start + words * 8 ≤ bytes.length) {framing final : Framing}
    (hpos : framing.position ≤ words) (hexp : framing.expanded ≤ limit) :
    readMarkers bytes start words limit framing = .ok final ↔
      ∃ more, expand ((wordsAt bytes start words).drop framing.position) = some more ∧
        framing.expanded + more.length ≤ limit ∧
        final = ⟨words, framing.expanded + more.length,
          lastMarkerFrom framing.position ((wordsAt bytes start words).drop framing.position) framing.lastMarker,
          more.getLast?.getD framing.lastWord⟩ := by
  fun_induction readMarkers bytes start words limit framing with
  | case2 framing hend =>
    have hnil : (wordsAt bytes start words).drop framing.position = [] :=
      drop_eq_nil_of_le (by simpa using hend)
    have hwords : words = framing.position := by omega
    rw [hnil, lastMarkerFrom, expand, hwords]
    constructor
    · rintro ⟨⟩
      exact ⟨[], rfl, hexp, rfl⟩
    · rintro ⟨more, hmore, -, rfl⟩
      cases hmore
      rfl
  | case1 framing hlt ih =>
    obtain ⟨hdr, hhd, hdrop⟩ := long_eq hroom hlt
    have hrest : ((wordsAt bytes start words).drop (framing.position + 1)).length =
        words - (framing.position + 1) := by simp
    have hskip : ((wordsAt bytes start words).drop (framing.position + 1)).drop (literalsOf hdr) =
        (wordsAt bytes start words).drop (framing.position + 1 + literalsOf hdr) := drop_drop
    rw [hdrop, lastMarkerFrom, hskip]
    simp only [hhd, bind_ok, reject_ok, Except.ok.injEq, exists_eq_left', expand_cons, hrest, hskip]
    -- the words of this marker come before those of the others
    have hlen : ∀ more : List UInt64, literalsOf hdr ≤ words - (framing.position + 1) →
        framing.expanded + (replicate (runOf hdr) (fill (bitOf hdr)) ++
          ((wordsAt bytes start words).drop (framing.position + 1)).take (literalsOf hdr) ++ more).length =
        framing.expanded + runOf hdr + literalsOf hdr + more.length := by
      intro more hlit
      rw [length_append, length_append, length_replicate, length_take, hrest]
      omega
    constructor
    · rintro ⟨-, hlim, -, hnext, lastWord, hlast, hfin⟩
      rw [lastWordOf_eq hroom (not_lt.mp hnext)] at hlast
      cases hlast
      obtain ⟨more, hmore, hlim', rfl⟩ := (ih hdr _ (not_lt.mp hnext) (not_lt.mp hlim)).mp hfin
      have hlit : literalsOf hdr ≤ words - (framing.position + 1) := by omega
      refine ⟨_, ⟨hlit, more, hmore, rfl⟩, ?_, ?_⟩
      · rw [hlen more hlit]
        exact hlim'
      · simp only [hlen more hlit, getLastD_append]
    · rintro ⟨all, ⟨hlit, more, hmore, rfl⟩, hlim, rfl⟩
      rw [hlen more hlit] at hlim
      have hnext : framing.position + 1 + literalsOf hdr ≤ words := by omega
      have hsum : framing.expanded + runOf hdr + literalsOf hdr ≤ limit := by omega
      refine ⟨(), not_lt.mpr hsum, (), not_lt.mpr hnext, _, lastWordOf_eq hroom hnext, ?_⟩
      refine (ih hdr _ hnext hsum).mpr ⟨more, hmore, hlim, ?_⟩
      simp only [hlen more hlit, getLastD_append]

lemma readMarkers_start (hroom : start + words * 8 ≤ bytes.length) {final : Framing} :
    readMarkers bytes start words limit ⟨0, 0, 0, 0⟩ = .ok final ↔
      ∃ all, expand (wordsAt bytes start words) = some all ∧ all.length ≤ limit ∧
        final = ⟨words, all.length, lastMarkerFrom 0 (wordsAt bytes start words) 0, all.getLast?.getD 0⟩ := by
  have hspec := @readMarkers_eq_ok bytes start words limit hroom ⟨0, 0, 0, 0⟩ final (zero_le _) (zero_le _)
  simpa only [drop_zero, zero_add] using hspec

end Markers

section Mask

def tailBits (bits : Nat) : Nat := if bits % 64 = 0 then 64 else bits % 64

lemma tailMask_toNat (bits : Nat) : (tailMask bits).toNat = 2 ^ tailBits bits - 1 := by
  unfold tailMask tailBits
  split_ifs with h
  · rfl
  have hlt : bits % 64 < 64 := Nat.mod_lt _ (by decide)
  have hpow : 2 ^ (bits % 64) < 2 ^ 64 := Nat.pow_lt_pow_right (by decide) hlt
  have hone : (1 : UInt64).toNat = 1 := rfl
  have hshi : ((1 : UInt64) <<< UInt64.ofNat (bits % 64)).toNat = 2 ^ (bits % 64) := by
    rw [UInt64.toNat_shiftLeft, UInt64.toNat_ofNat', hone, Nat.mod_eq_of_lt (a := bits % 64) (by omega),
      Nat.mod_eq_of_lt hlt, Nat.shiftLeft_eq, Nat.one_mul, Nat.mod_eq_of_lt hpow]
  have hpos : 0 < 2 ^ (bits % 64) := Nat.pow_pos (by decide)
  rw [UInt64.toNat_sub_of_le _ _ (by rw [UInt64.le_iff_toNat_le, hshi, hone]; exact hpos), hshi, hone]

lemma and_not_tailMask {word : UInt64} {bits : Nat} :
    word &&& ~~~tailMask bits = 0 ↔ word.toNat < 2 ^ tailBits bits := by
  have hmod : (word &&& tailMask bits).toNat = word.toNat % 2 ^ tailBits bits := by
    rw [UInt64.toNat_and, tailMask_toNat, Nat.and_two_pow_sub_one_eq_mod]
  have hsplit : (word &&& tailMask bits) ||| (word &&& ~~~tailMask bits) = word := by
    rw [← UInt64.toBitVec_inj, UInt64.toBitVec_or, UInt64.toBitVec_and, UInt64.toBitVec_and,
      ← BitVec.and_or_distrib_left,
      UInt64.toBitVec_not, BitVec.or_not_self, BitVec.and_allOnes]
  constructor
  · intro h
    rw [h, UInt64.or_zero] at hsplit
    rw [hsplit] at hmod
    exact hmod ▸ Nat.mod_lt _ (Nat.two_pow_pos _)
  · intro h
    rw [Nat.mod_eq_of_lt h, UInt64.toNat_inj] at hmod
    rw [← hmod, UInt64.and_assoc, UInt64.and_not_self, UInt64.and_zero]

end Mask

section Decode

variable {output : List UInt64}

def xorAt (output : List UInt64) (out : Nat) (more : List UInt64) : List UInt64 :=
  output.mapIdx fun i word => if out ≤ i then word ^^^ more.getD (i - out) 0 else word

lemma getElem?_xorAt (output : List UInt64) (out : Nat) (more : List UInt64) (i : Nat) :
    (xorAt output out more)[i]? = output[i]?.map fun word => if out ≤ i then word ^^^ more.getD (i - out) 0 else word :=
  getElem?_mapIdx

@[simp] lemma length_xorAt (output : List UInt64) (out : Nat) (more : List UInt64) :
    (xorAt output out more).length = output.length := length_mapIdx

@[simp] lemma xorAt_nil (output : List UInt64) (out : Nat) : xorAt output out [] = output := by
  refine ext_getElem? fun i => ?_
  rw [getElem?_xorAt]
  cases output[i]? <;> simp

lemma xorAt_zero (output more : List UInt64) : xorAt output 0 more = xorWords output more := by
  refine ext_getElem? fun i => ?_
  rw [getElem?_xorAt, getElem?_xorWords]
  simp

lemma xorAt_append (output : List UInt64) (out : Nat) (a b : List UInt64) :
    xorAt (xorAt output out a) (out + a.length) b = xorAt output out (a ++ b) := by
  refine ext_getElem? fun i => ?_
  rw [getElem?_xorAt, getElem?_xorAt, getElem?_xorAt, Option.map_map]
  congr 1
  funext word
  simp only [Function.comp_apply, getD_eq_getElem?_getD]
  by_cases hout : out ≤ i
  · by_cases hnext : out + a.length ≤ i
    · rw [if_pos hnext, if_pos hout, if_pos hout, getElem?_append_right (by omega),
        getElem?_eq_none (by omega),
        show i - (out + a.length) = i - out - a.length by omega]
      simp
    · rw [if_neg hnext, if_pos hout, if_pos hout, getElem?_append_left (by omega)]
  · rw [if_neg hout, if_neg hout, if_neg (by omega)]

lemma getD_replicate_fill (run : Nat) (bit : Bool) (i : Nat) :
    (List.replicate run (fill bit)).getD i 0 = if i < run then fill bit else 0 := by
  rw [getD_eq_getElem?_getD, getElem?_replicate]
  split_ifs <;> rfl

lemma xorRun_eq {header : UInt64} {out : Nat} (h : out + runOf header ≤ output.length) :
    xorRun header output out (out + runOf header) =
      .ok (xorAt output out (List.replicate (runOf header) (fill (bitOf header)))) := by
  unfold xorRun
  cases hbit : bitOf header with
  | false =>
    rw [if_neg (by decide)]
    congr 1
    refine ext_getElem? fun i => ?_
    rw [getElem?_xorAt]
    simp only [getD_replicate_fill]
    simp [fill]
  | true =>
    rw [if_pos rfl, invertRange, if_pos h]
    congr 1
    refine ext_getElem? fun i => ?_
    rw [getElem?_xorAt]
    simp only [getD_replicate_fill]
    have hbf : (output.take out).length = out := by rw [length_take]; omega
    have hrun : (((output.take (out + runOf header)).drop out).map (· ^^^ ones)).length = runOf header := by
      rw [length_map, length_drop, length_take]
      omega
    by_cases hlow : i < out
    · rw [getElem?_append_left (by rw [length_append]; omega), getElem?_append_left (by omega),
        getElem?_take_of_lt hlow]
      simp [if_neg (not_le.mpr hlow)]
    by_cases hhigh : i < out + runOf header
    · rw [getElem?_append_left (by rw [length_append]; omega), getElem?_append_right (by omega), hbf,
        getElem?_map, getElem?_drop, Nat.add_sub_cancel' (not_lt.mp hlow), getElem?_take_of_lt hhigh]
      simp [if_pos (not_lt.mp hlow), if_pos (show i - out < runOf header by omega), fill]
    · rw [getElem?_append_right (by rw [length_append]; omega), length_append, hbf, hrun,
        getElem?_drop, Nat.add_sub_cancel' (not_lt.mp hhigh)]
      simp [if_neg (show ¬ i - out < runOf header by omega)]

lemma xorLiterals_eq {bytes : Bytes} {start words : Nat} (hroom : start + words * 8 ≤ bytes.length)
    (lits : Nat) {pos out : Nat} (hpos : pos + lits ≤ words) (hout : out + lits ≤ output.length) :
    xorLiterals bytes start lits pos out output =
      .ok (xorAt output out (((wordsAt bytes start words).drop pos).take lits)) := by
  induction lits generalizing pos out output with
  | zero => rw [xorLiterals, take_zero, xorAt_nil]
  | succ lits ih =>
    obtain ⟨val, hval, hdrop⟩ := long_eq hroom (show pos < words by omega)
    have hmod : output.modify out (· ^^^ val) = xorAt output out [val] := by
      refine ext_getElem? fun i => ?_
      rw [getElem?_xorAt, getElem?_modify]
      congr 1
      by_cases hi : out = i
      · subst hi
        simp
      split_ifs with hle
      · rw [getD_eq_getElem?_getD, getElem?_eq_none (by simp only [length_singleton]; omega)]
        simp
      · rfl
    rw [xorLiterals, hdrop, take_succ_cons]
    refine bind_ok.mpr ⟨val, hval, reject_bind.mpr ⟨(by omega), ?_⟩⟩
    have hjoin := xorAt_append output out [val] (((wordsAt bytes start words).drop (pos + 1)).take lits)
    rw [length_singleton] at hjoin
    rw [hmod, ih (by omega) (by rw [length_xorAt]; omega), hjoin]
    rfl

lemma xorFrom_eq {ewah : Ewah} {bytes : Bytes} (hroom : ewah.start + ewah.words * 8 ≤ bytes.length)
    {position out bud : Nat} {more : List UInt64} (hpos : position ≤ ewah.words)
    (hmore : expand ((wordsAt bytes ewah.start ewah.words).drop position) = some more)
    (hout : out + more.length ≤ output.length) (hbud : more.length ≤ bud) :
    ewah.xorFrom bytes position out output bud =
      .ok (xorAt output out more, bud - more.length) := by
  fun_induction Ewah.xorFrom ewah bytes position out output bud generalizing more with
  | case2 position out output bud hend =>
    rw [drop_eq_nil_of_le (by simpa using hend), expand] at hmore
    cases hmore
    rw [xorAt_nil]
    rfl
  | case1 position out output bud hlt ih =>
    obtain ⟨header, hhd, hdrop⟩ := long_eq hroom hlt
    rw [hdrop, expand_cons, drop_drop] at hmore
    obtain ⟨hlit, rest, hrest, rfl⟩ := hmore
    rw [length_drop, length_wordsAt] at hlit
    have htake : (((wordsAt bytes ewah.start ewah.words).drop (position + 1)).take (literalsOf header)).length =
        literalsOf header := by
      rw [length_take, length_drop, length_wordsAt]
      omega
    rw [length_append, length_append, length_replicate, htake] at hout hbud ⊢
    have hcha : charge bud (runOf header + literalsOf header) =
        .ok (bud - (runOf header + literalsOf header)) :=
      if_pos (by omega)
    refine bind_ok.mpr ⟨header, hhd, bind_ok.mpr ⟨_, hcha, ?_⟩⟩
    refine bind_ok.mpr ⟨_, xorRun_eq (by omega), bind_ok.mpr ⟨_, xorLiterals_eq hroom _ (by omega) ?_, ?_⟩⟩
    · rw [length_xorAt]
      omega
    rw [ih header _ _ (by omega) hrest (by rw [length_xorAt, length_xorAt]; omega) (by omega),
      ← xorAt_append,
      ← xorAt_append, length_append, length_replicate, htake, add_assoc]
    congr 2
    omega

lemma xorInto_eq {ewah : Ewah} {bytes : Bytes} (hroom : ewah.start + ewah.words * 8 ≤ bytes.length)
    {bud : Nat}
    {output all : List UInt64} (hall : expand (wordsAt bytes ewah.start ewah.words) = some all)
    (hout : all.length ≤ output.length) (hbud : all.length ≤ bud) :
    ewah.xorInto bytes output bud = .ok (xorWords output all, bud - all.length) := by
  rw [Ewah.xorInto, xorFrom_eq hroom (zero_le _) hall (by omega) hbud, xorAt_zero]

end Decode

section Write

variable {output output' : Output} {words : List UInt64}

def streamBytes (stream : List UInt64) : Bytes := stream.flatMap fun word => beBytes 8 word.toNat

lemma length_streamBytes (stream : List UInt64) : (streamBytes stream).length = stream.length * 8 :=
  length_table fun word _ => beBytes_length 8 word.toNat

lemma wordsAt_streamBytes (pre after : Bytes) (stream : List UInt64) :
    wordsAt (pre ++ (streamBytes stream ++ after)) pre.length stream.length = stream := by
  refine ext_getElem (by simp) fun i hi hi' => ?_
  obtain ⟨-, hbs⟩ := slice_table pre after (fun word _ => beBytes_length 8 word.toNat) hi'
  simp only [wordsAt, getElem_map, getElem_range, streamBytes, hbs]
  rw [beNat_beBytes (lt_of_lt_of_eq stream[i].toNat_lt (by norm_num)), UInt64.ofNat_toNat]

lemma bytes_settled (more : Bytes) : Settled (· = { output with data := output.data ++ more })
    (output.limit < output.data.length + more.length) (output.bytes more) := by
  unfold Output.bytes
  split_ifs with h
  · rfl
  · exact not_le.mp h

lemma foldlM_long : Settled (· = { output with data := output.data ++ streamBytes words })
    (output.limit < output.data.length + words.length * 8) (words.foldlM Output.long output) := by
  induction words generalizing output with
  | nil => exact congrArg (Output.mk · output.limit) (append_nil _).symm
  | cons word words ih =>
    rw [foldlM_cons]
    refine (bytes_settled _).bind (by rw [beBytes_length, length_cons]; omega) ?_
    rintro _ rfl
    refine ih.mono (by simp only [length_append, beBytes_length, length_cons]; omega) ?_
    rintro _ rfl
    simp [streamBytes]

lemma split_words (words : List UInt64) : words = List.replicate
    (words.length - (words.dropWhile (· = fill (isOnes words))).length) (fill (isOnes words)) ++
      ((words.dropWhile (· = fill (isOnes words))).takeWhile isLiteral ++
        (words.dropWhile (· = fill (isOnes words))).dropWhile isLiteral) := by
  generalize fill (isOnes words) = repeated
  rw [takeWhile_append_dropWhile]
  have hcut : words.takeWhile (· = repeated) ++ words.dropWhile (· = repeated) = words :=
    takeWhile_append_dropWhile
  have hlen := congrArg length hcut
  rw [length_append] at hlen
  have hrun : words.takeWhile (· = repeated) =
      replicate (words.length - (words.dropWhile (· = repeated)).length) repeated := by
    rw [eq_replicate_iff]
    refine ⟨by omega, fun word hword => ?_⟩
    simpa using mem_takeWhile_imp hword
  rw [← hrun, hcut]

lemma writeRuns_spec {prog : Progress} (hsize : words.length < 2 ^ 32) (hst : prog.compressed < 2 ^ 32) :
    Settled (fun final => ∃ stream, expand stream = some words ∧
      final = ⟨{ prog.output with data := prog.output.data ++ streamBytes stream },
        prog.compressed + stream.length, lastMarkerFrom prog.compressed stream prog.last⟩ ∧
      prog.compressed + stream.length < 2 ^ 32 ∧ stream.length ≤ 2 * words.length)
    (2 ^ 32 ≤ prog.compressed + 2 * words.length ∨ prog.output.limit < prog.output.data.length + 16 * words.length)
    (writeRuns words prog) := by
  fun_induction writeRuns words prog with
  | case1 prog =>
    refine ⟨[], by rw [expand], ?_, hst, zero_le _⟩
    rw [lastMarkerFrom]
    simp [streamBytes]
  | case2 words prog hne bit rest run lits ih =>
    have hless : (rest.dropWhile isLiteral).length < words.length := rest_lt hne
    have hcut : words = replicate run (fill bit) ++ (lits ++ rest.dropWhile isLiteral) := split_words words
    have hlen := congrArg length hcut
    rw [length_append, length_append, length_replicate] at hlen
    refine settled_reject (fun hlit => .inl (by omega)) fun hlit => (bytes_settled _).bind
      (fun hfull => .inr (by rw [beBytes_length] at hfull; omega)) ?_
    rintro _ rfl
    refine settled_reject (fun hcom => .inl (by omega)) fun hcom => foldlM_long.bind
      (fun hfull => .inr (by simp only [length_append, beBytes_length] at hfull; omega)) ?_
    rintro _ rfl
    have hrun : run < 2 ^ 32 := by omega
    have hsh : lits.length < 2 ^ 31 := by omega
    refine (ih _ (by omega) (not_le.mp hcom)).mono
      (by simp only [length_append, beBytes_length, length_streamBytes]; omega) ?_
    rintro _ ⟨stream, hstream, rfl, hnum, hle⟩
    refine ⟨marker bit run lits.length :: (lits ++ stream), ?_, ?_, ?_⟩
    · rw [expand_marker hrun hsh hstream, append_assoc, ← hcut]
    · rw [lastMarkerFrom, literalsOf_marker hrun hsh, drop_left' rfl]
      simp only [Progress.mk.injEq, Output.mk.injEq, and_true, length_cons, length_append]
      refine ⟨?_, by omega, by rw [add_assoc]⟩
      simp [streamBytes]
    · rw [length_cons, length_append]
      simp only at hnum
      omega

lemma writeWords_spec (hsize : words.length < 2 ^ 32) :
    Settled (fun final => ∃ stream, expand stream = some words ∧ stream ≠ [] ∧ stream.length < 2 ^ 32 ∧
      final = ⟨{ output with data := output.data ++ streamBytes stream }, stream.length, lastMarkerFrom 0 stream 0⟩ ∧
      stream.length ≤ 1 + 2 * words.length)
    (2 ^ 32 ≤ 2 * words.length ∨ output.limit < output.data.length + 8 + 16 * words.length)
    (writeWords words output) := by
  unfold writeWords
  split_ifs with hnil
  · refine (bytes_settled _).bind (by rw [beBytes_length]; omega) ?_
    rintro _ rfl
    have hexp : expand [0] = some [] := by
      simp [literalsOf, runOf, expand]
    refine ⟨[0], by rw [hexp, hnil], cons_ne_nil _ _, by simp, ?_⟩
    simp [streamBytes, lastMarkerFrom]
  · refine (@writeRuns_spec words ⟨output, 0, 0⟩ hsize (show 0 < 2 ^ 32 by decide)).mono
      (by simp only; omega) ?_
    rintro _ ⟨stream, hstream, rfl, hnum, hle⟩
    refine ⟨stream, hstream, ?_, by simpa using hnum, by simp, by omega⟩
    rintro rfl
    rw [expand] at hstream
    exact hnil (Option.some.inj hstream).symm

def trimmed (input : List UInt64) : List UInt64 := input.rdropWhile (· = 0)

def framed (bits : Nat) (stream : List UInt64) : Bytes :=
  beBytes 4 bits ++ (beBytes 4 stream.length ++ (streamBytes stream ++ beBytes 4 (lastMarkerFrom 0 stream 0)))

lemma bitLength_bounds (hne : words ≠ []) (hlast : words.getLast? ≠ some 0) :
    (words.length - 1) * 64 < bitLength words ∧ bitLength words ≤ words.length * 64 := by
  obtain ⟨last, hsome⟩ := isSome_iff_exists.mp (getLast?_isSome.mpr hne)
  rw [bitLength, hsome]
  have hpos : 0 < last.toNat.size := by
    rw [size_pos]
    refine pos_of_ne_zero fun hzero => hlast ?_
    rw [hsome, ← UInt64.toNat_inj.mp (show last.toNat = (0 : UInt64).toNat from hzero)]
  have hle : last.toNat.size ≤ 64 := size_le.mpr last.toNat_lt
  have hlen := length_pos_of_ne_nil hne
  simp only
  omega

lemma trimmed_getLast? (input : List UInt64) : (trimmed input).getLast? ≠ some 0 := by
  intro hlast
  have hne : trimmed input ≠ [] := by
    intro hnil
    rw [hnil] at hlast
    cases hlast
  have hnot := rdropWhile_last_not (fun word : UInt64 => decide (word = 0)) input hne
  rw [getLast?_eq_some_getLast hne, Option.some.injEq] at hlast
  exact hnot (decide_eq_true hlast)

lemma length_of_bitLength (hlast : words.getLast? ≠ some 0) :
    words.length = wordCount (bitLength words) := by
  by_cases hne : words = []
  · subst hne
    rfl
  · have hbound := bitLength_bounds hne hlast
    unfold wordCount
    omega

lemma setCount_eq (pre after : Bytes) (limit old count : Nat) :
    Output.setCount ⟨pre ++ beBytes 4 old ++ after, limit⟩ pre.length count =
      ⟨pre ++ beBytes 4 count ++ after, limit⟩ := by
  have hdata : pre ++ beBytes 4 old ++ after = pre ++ (beBytes 4 old ++ after) := append_assoc _ _ _
  simp only [Output.setCount]
  rw [hdata, ← drop_drop, drop_left' rfl, take_left' rfl, drop_left' (beBytes_length _ _)]

lemma ewah_spec (output : Output) (input : List UInt64) :
    Settled (fun output' => ∃ stream, expand stream = some (trimmed input) ∧ stream ≠ [] ∧ stream.length < 2 ^ 32 ∧
      bitLength (trimmed input) < 2 ^ 32 ∧
      output' = { output with data := output.data ++ framed (bitLength (trimmed input)) stream })
    (2 ^ 32 ≤ bitLength (trimmed input) ∨ output.limit < output.data.length + 20 + 16 * (trimmed input).length)
    (ewah output input) := by
  have hwords := length_of_bitLength (trimmed_getLast? input)
  unfold wordCount at hwords
  refine settled_reject .inl fun hbits => (bytes_settled _).bind (by rw [beBytes_length]; omega) ?_
  rintro _ rfl
  refine (bytes_settled _).bind (by simp only [length_append, beBytes_length]; omega) ?_
  rintro _ rfl
  have hsh : bitLength (trimmed input) < 2 ^ 32 := not_le.mp hbits
  refine (@writeWords_spec _ (trimmed input) (by omega)).bind
    (by simp only [length_append, beBytes_length]; omega) ?_
  rintro _ ⟨stream, hstream, hne, hnum, rfl, hle⟩
  rw [setCount_eq]
  refine (bytes_settled _).mono (by simp only [length_append, beBytes_length, length_streamBytes]; omega) ?_
  rintro _ rfl
  refine ⟨stream, hstream, hne, hnum, hsh, ?_⟩
  simp [framed, trimmed]

end Write

section Parse

variable {bytes pre after : Bytes} {cursor stop objs : Nat}

lemma number_eq {width value start : Nat}
    {rest : Bytes} (hbs : bytes = pre ++ (beBytes width value ++ rest)) (hst : start = pre.length)
    (hval : value < 256 ^ width) : number width bytes start = .ok value := by
  subst hbs hst
  rw [number, if_pos (by simp only [length_append, beBytes_length]; omega), drop_left' rfl,
    take_left' (beBytes_length _ _), beNat_beBytes hval]

lemma lastMarkerFrom_le {pos prev : Nat} {stream all : List UInt64} (h : expand stream = some all) :
    lastMarkerFrom pos stream prev ≤ max prev (pos + stream.length) := by
  fun_induction lastMarkerFrom pos stream prev generalizing all with
  | case1 pos prev => exact le_max_left _ _
  | case2 pos prev word rest ih =>
    obtain ⟨hlit, more, hmore, -⟩ := expand_cons.mp h
    refine (ih hmore).trans ?_
    rw [length_drop, length_cons]
    omega

lemma parse_spec {ewah : Ewah} {next : Nat} (h : Ewah.parse bytes cursor stop objs = .ok (ewah, next)) :
    ewah.start + ewah.words * 8 ≤ bytes.length ∧ cursor < next ∧ next ≤ stop ∧
      ∃ all, expand (wordsAt bytes ewah.start ewah.words) = some all ∧ all.length ≤ wordCount objs ∧
        (all.length = wordCount objs → ∀ last ∈ all.getLast?, last.toNat < 2 ^ tailBits objs) := by
  simp only [Ewah.parse, bind_ok, reject_ok] at h
  obtain ⟨bits, hbits, words, hwords, -, hnum, -, hrg, current, hcur, framing, hfra, -, hlen, -, -,
    -, hout,
    h⟩ := h
  cases h
  have hroom : cursor + 8 + words * 8 ≤ bytes.length := by
    unfold word number at hcur
    split_ifs at hcur with hend
    omega
  obtain ⟨all, hall, hle, rfl⟩ := (readMarkers_start hroom).mp hfra
  refine ⟨hroom, by omega, by omega, all, hall, by omega, fun hfull last hlast => ?_⟩
  have hsome : all.getLast? = some last := hlast
  have hne : all.length ≠ 0 := by
    intro hzero
    rw [length_eq_zero_iff.mp hzero] at hsome
    cases hsome
  rw [hsome, getD_some] at hout
  by_contra hbits
  exact hout ⟨hne, hfull, fun hmask => hbits (and_not_tailMask.mp hmask)⟩

lemma last_tailMask {words : List UInt64} (hobs : bitLength words ≤ objs)
    (hfull : words.length = wordCount objs) : words.getLast?.getD 0 &&& ~~~tailMask objs = 0 := by
  rw [bitLength] at hobs
  cases hlast : words.getLast? with
  | none => exact UInt64.zero_and
  | some last =>
    rw [hlast] at hobs
    simp only at hobs
    unfold wordCount at hfull
    refine and_not_tailMask.mpr (size_le.mp ?_)
    rw [getD_some]
    unfold tailBits
    split_ifs <;> omega

lemma wordsAt_framed (bits : Nat) (stream : List UInt64) :
    wordsAt (pre ++ (framed bits stream ++ after)) (pre.length + 8) stream.length = stream := by
  have hwho := wordsAt_streamBytes (pre ++ (beBytes 4 bits ++ beBytes 4 stream.length))
    (beBytes 4 (lastMarkerFrom 0 stream 0) ++ after) stream
  rw [show (pre ++ (beBytes 4 bits ++ beBytes 4 stream.length)).length = pre.length + 8 by simp] at hwho
  simpa only [framed, append_assoc] using hwho

/-- A framed stream is accepted over all objects that its bits are among. -/
lemma parse_framed {stream words : List UInt64} (hstream : expand stream = some words) (hne : stream ≠ [])
    (hnum : stream.length < 2 ^ 32) (hlast : words.getLast? ≠ some 0) (hbits : bitLength words < 2 ^ 32)
    (hstop : pre.length + (framed (bitLength words) stream).length ≤ stop) (hobs : bitLength words ≤ objs) :
    Ewah.parse (pre ++ (framed (bitLength words) stream ++ after)) pre.length stop objs =
      .ok (⟨pre.length + 8, stream.length⟩, pre.length + (framed (bitLength words) stream).length) := by
  have hmark : lastMarkerFrom 0 stream 0 < 2 ^ 32 := by
    have hle := @lastMarkerFrom_le 0 0 stream words hstream
    omega
  have hlen : (framed (bitLength words) stream).length = 12 + stream.length * 8 := by
    simp only [framed, length_append, beBytes_length, length_streamBytes]
    omega
  have hwords := length_of_bitLength hlast
  obtain ⟨bytes, hbytes⟩ : ∃ bytes, bytes = pre ++ (framed (bitLength words) stream ++ after) := ⟨_, rfl⟩
  have hbs : bytes = pre ++ (beBytes 4 (bitLength words) ++
      (beBytes 4 stream.length ++ (streamBytes stream ++ (beBytes 4 (lastMarkerFrom 0 stream 0) ++ after)))) := by
    simp [hbytes, framed]
  have hfirst : word bytes pre.length = .ok (bitLength words) :=
    number_eq hbs rfl (by omega)
  have hsec : word bytes (pre.length + 4) = .ok stream.length :=
    @number_eq _ (pre ++ beBytes 4 (bitLength words)) 4 _ _ _ (by rw [hbs, append_assoc]) (by simp) (by omega)
  have hthi : word bytes (pre.length + 8 + stream.length * 8) =
      .ok (lastMarkerFrom 0 stream 0) :=
    @number_eq _ (pre ++ (beBytes 4 (bitLength words) ++ (beBytes 4 stream.length ++ streamBytes stream))) 4 _ _ _
      (by rw [hbs, append_assoc, append_assoc, append_assoc])
      (by simp only [length_append, beBytes_length, length_streamBytes]; omega) (by omega)
  have hat := @wordsAt_framed pre after (bitLength words) stream
  rw [← hbytes] at hat ⊢
  have hroom : pre.length + 8 + stream.length * 8 ≤ bytes.length := by
    simp only [hbytes, length_append, hlen]
    omega
  have hmar := (@readMarkers_start _ _ _ (wordCount (bitLength words)) hroom _).mpr
    ⟨words, by rw [hat]; exact hstream, le_of_eq hwords, rfl⟩
  rw [hat] at hmar
  have hpos := length_pos_of_ne_nil hne
  simp only [Ewah.parse, bind_ok, reject_ok]
  refine ⟨_, hfirst, _, hsec, (), ?_, (), by omega, _, hthi, _, hmar, (), ?_, (), ?_, (), ?_, ?_⟩
  · unfold wordCount
    omega
  · simp [← hwords]
  · exact fun h => h.2 (last_tailMask le_rfl hwords)
  · exact fun h => h.2.2 (last_tailMask hobs h.2.1)
  · rw [hlen, show pre.length + (12 + stream.length * 8) = pre.length + 8 + stream.length * 8 + 4 by omega]
    rfl

end Parse

section RoundTrip

lemma getD_trimmed (input : List UInt64) (i : Nat) : (trimmed input).getD i 0 = input.getD i 0 := by
  have hcut : trimmed input ++ input.rtakeWhile (· = 0) = input := rdropWhile_append_rtakeWhile
  rw [getD_eq_getElem?_getD, getD_eq_getElem?_getD]
  conv_rhs => rw [← hcut]
  by_cases hi : i < (trimmed input).length
  · rw [getElem?_append_left hi]
  rw [getElem?_append_right (not_lt.mp hi), getElem?_eq_none (not_lt.mp hi)]
  cases htail : (input.rtakeWhile (· = 0))[i - (trimmed input).length]? with
  | none => rfl
  | some word =>
    have hzero := mem_rtakeWhile_imp (mem_of_getElem? htail)
    exact (of_decide_eq_true hzero).symm

def padded (size : Nat) (words : List UInt64) : List UInt64 := (List.range size).map fun i => words.getD i 0

lemma getElem?_padded (size : Nat) (words : List UInt64) (i : Nat) :
    (padded size words)[i]? = if i < size then some (words.getD i 0) else none := by
  unfold padded
  split_ifs with hi
  · rw [getElem?_map, getElem?_range hi]
    rfl
  · exact getElem?_eq_none (by simpa using hi)

lemma xorWords_zeros (size : Nat) (words : List UInt64) :
    xorWords (List.replicate size 0) (trimmed words) = padded size words := by
  refine ext_getElem? fun i => ?_
  rw [getElem?_xorWords, getElem?_padded, getElem?_replicate, getD_trimmed]
  split_ifs <;> simp

lemma xorWords_padded (size : Nat) (a b : List UInt64) :
    xorWords (padded size a) (trimmed b) =
      List.zipWith (· ^^^ ·) (padded size a) (padded size b) := by
  refine ext_getElem? fun i => ?_
  rw [getElem?_xorWords, getElem?_zipWith, getElem?_padded, getElem?_padded, getD_trimmed]
  split_ifs <;> rfl

lemma ewah_decodes {output output' : Output} {input : List UInt64}
    (h : ewah output input = .ok output') (after : Bytes)
    {stop objs : Nat} (hstop : output'.data.length ≤ stop) (hobs : bitLength (trimmed input) ≤ objs) :
    ∃ parsed, Ewah.parse (output'.data ++ after) output.data.length stop objs = .ok (parsed, output'.data.length) ∧
      ∀ buffer bud, (trimmed input).length ≤ buffer.length → (trimmed input).length ≤ bud →
        parsed.xorInto (output'.data ++ after) buffer bud =
          .ok (xorWords buffer (trimmed input), bud - (trimmed input).length) := by
  obtain ⟨stream, hstream, hne, hnum, hbits, rfl⟩ := (ewah_spec output input).of_ok h
  simp only [length_append] at hstop
  have hpar := @parse_framed output.data after stop objs stream _ hstream hne hnum
    (trimmed_getLast? input) hbits
    hstop hobs
  simp only [length_append]
  rw [append_assoc]
  refine ⟨_, hpar, fun buffer bud hbuf hbud => ?_⟩
  have hall := @wordsAt_framed output.data after (bitLength (trimmed input)) stream
  exact xorInto_eq (parse_spec hpar).1 (by rw [hall]; exact hstream) hbuf hbud

/-- Every bitmap whose bits can be counted is written if there is room. What was written is accepted wherever
it stands, decoding it into zeros gives its words, and decoding another one on top of that gives the bitwise
sum of both. -/
theorem ewah_round_trip (output : Output) (a : List UInt64) :
    (bitLength (trimmed a) < 2 ^ 32 → output.data.length + 20 + 16 * (trimmed a).length ≤ output.limit →
      ∃ written, ewah output a = .ok written) ∧
    ∀ written, ewah output a = .ok written → ∀ (after : Bytes) (stop objects : Nat), written.data.length ≤ stop →
      bitLength (trimmed a) ≤ objects →
      ∃ first, Ewah.parse (written.data ++ after) output.data.length stop objects = .ok (first, written.data.length) ∧
        (∀ size budget, (trimmed a).length ≤ size → (trimmed a).length ≤ budget →
          first.xorInto (written.data ++ after) (List.replicate size 0) budget =
            .ok (padded size a, budget - (trimmed a).length)) ∧
        ∀ (output' written' : Output) (b : List UInt64), ewah output' b = .ok written' →
          ∀ (after' : Bytes) (stop' : Nat), written'.data.length ≤ stop' → bitLength (trimmed b) ≤ objects →
          ∃ second, Ewah.parse (written'.data ++ after') output'.data.length stop' objects =
              .ok (second, written'.data.length) ∧
            ∀ size budget, (trimmed b).length ≤ size → (trimmed b).length ≤ budget →
              second.xorInto (written'.data ++ after') (padded size a) budget =
                .ok (List.zipWith (· ^^^ ·) (padded size a) (padded size b), budget - (trimmed b).length) := by
  refine ⟨fun hbits hroom => ((ewah_spec output a).total (by omega)).imp fun _ h => h.1,
    fun written ha after stop objects hstop hobs => ?_⟩
  obtain ⟨first, hfirst, hxor⟩ := ewah_decodes ha after hstop hobs
  refine ⟨first, hfirst, fun size budget hsize hbud => ?_,
    fun output' written' b hb after' stop' hstop' hobs' => ?_⟩
  · rw [hxor _ _ (by simpa using hsize) hbud, xorWords_zeros]
  · obtain ⟨second, hsec, hxor'⟩ := ewah_decodes hb after' hstop' hobs'
    refine ⟨second, hsec, fun size budget hsize hbud => ?_⟩
    rw [hxor' _ _ (by simpa [padded] using hsize) hbud, xorWords_padded]

theorem ewah_round_trip_sample :
    ∃ written, ewah ⟨[], 100⟩ [ones, 5, 0] = .ok written ∧
      ∃ first, Ewah.parse (written.data ++ []) 0 100 128 = .ok (first, written.data.length) ∧
      first.xorInto (written.data ++ []) (List.replicate 3 0) 2 =
      .ok (padded 3 [ones, 5, 0], 0) := by
  have hsam := ewah_round_trip ⟨[], 100⟩ [ones, 5, 0]
  obtain ⟨written, hwri⟩ := hsam.1 (by decide +kernel) (by decide +kernel)
  have hlen : written.data.length ≤ 100 := by
    have hrun : (ewah ⟨[], 100⟩ [ones, 5, 0]).toOption.map (·.data.length) = some 28 := by decide +kernel
    rw [hwri] at hrun
    exact (Option.some.inj hrun).trans_le (by decide)
  obtain ⟨first, hfirst, hxor, -⟩ := hsam.2 written hwri [] 100 128 hlen (by decide +kernel)
  exact ⟨written, hwri, first, hfirst, hxor 3 2 (by decide +kernel) (by decide +kernel)⟩

end RoundTrip

end Girt.Bitmap
