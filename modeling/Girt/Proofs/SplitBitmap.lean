import Girt.Index.Split
import Girt.Proofs.BitmapIndex

/-!
# Bitmaps of split indexes

The decoder gives the set bits of its stream in order, and holds no position outside of the declared bits.
-/

namespace Girt.IndexFile
open ByteLib EwahLib Bitmap List
open UInt64 (toNat)

section Bits

/-- The set bits of some words, counted from an offset on. -/
def setBits (offset : Nat) (words : List UInt64) : List Nat :=
  (List.range' offset (64 * words.length)).filter fun position => bit words (position - offset)

variable {off : Nat}

lemma bit_append (a b : List UInt64) (i : Nat) :
    bit (a ++ b) i = if i < 64 * a.length then bit a i else bit b (i - 64 * a.length) := by
  unfold bit
  rw [getD_eq_getElem?_getD, getD_eq_getElem?_getD, getD_eq_getElem?_getD]
  split_ifs with hi
  · rw [getElem?_append_left (by omega)]
  · rw [getElem?_append_right (by omega), show (i - 64 * a.length) / 64 = i / 64 - a.length by omega,
      show (i - 64 * a.length) % 64 = i % 64 by omega]

lemma setBits_append (a b : List UInt64) :
    setBits off (a ++ b) = setBits off a ++ setBits (off + 64 * a.length) b := by
  rw [setBits, length_append, Nat.mul_add, ← range'_append_1, filter_append]
  congr 1
  · refine filter_congr fun pos hpos => ?_
    rw [bit_append, if_pos (by have := mem_range'_1.mp hpos; omega)]
  · refine filter_congr fun pos hpos => ?_
    rw [bit_append, if_neg (by have := mem_range'_1.mp hpos; omega), Nat.sub_add_eq]

lemma setBits_single (word : UInt64) :
    setBits off [word] =
      ((List.range 64).filter fun bit => word.toNat.testBit bit).map fun bit => off + bit := by
  rw [setBits, range'_eq_map_range, filter_map]
  refine congrArg _ (filter_congr fun i hi => ?_)
  have hlt := mem_range.mp hi
  simp only [length_singleton] at hlt
  simp [bit, Nat.div_eq_of_lt hlt, Nat.mod_eq_of_lt hlt]

lemma setBits_fill (run : Nat) (set : Bool) :
    setBits off (replicate run (fill set)) = if set then List.range' off (run * 64) else [] := by
  have hbit : ∀ i < 64 * run, bit (replicate run (fill set)) i = set := by
    intro i hi
    rw [bit, getD_eq_getElem _ _ (by rw [length_replicate]; omega), getElem_replicate]
    cases set
    · simp [fill]
    · rw [fill, if_pos rfl, show ones.toNat = 2 ^ 64 - 1 from rfl, Nat.testBit_two_pow_sub_one,
        decide_eq_true_eq]
      omega
  have hcon : setBits off (replicate run (fill set)) = (List.range' off (64 * run)).filter fun _ => set := by
    rw [setBits, length_replicate]
    exact filter_congr fun pos hpos => hbit _ (by have := mem_range'_1.mp hpos; omega)
  rw [hcon, Nat.mul_comm]
  cases set <;> simp

lemma mem_setBits {words : List UInt64} {i : Nat} : i ∈ setBits 0 words ↔ bit words i := by
  rw [setBits, mem_filter, mem_range'_1, Nat.sub_zero]
  refine and_iff_right_of_imp fun hbit => ⟨Nat.zero_le _, ?_⟩
  by_contra hle
  rw [bit_of_length_le (by omega)] at hbit
  cases hbit

end Bits

section Memory

/-- The positions that the decoder holds after some literal words, also when it rejects them. -/
def heldLiterals (bits : Nat) : Nat → List Nat → List Nat
  | _, [] => []
  | offset, value :: rest =>
    let set := ((List.range 64).filter fun bit => value.testBit bit).map fun bit => offset + bit
    set.takeWhile (· < bits) ++
      if set.any (fun position => bits ≤ position) ∨ offset + 64 > bits + 63 then []
      else heldLiterals bits (offset + 64) rest

def heldRuns (bits offset : Nat) (words : List Nat) : List Nat :=
  match words with
  | [] => []
  | run :: rest =>
    let repeats := run / 2 % 2 ^ 32
    let literals := run / 2 ^ 33
    let next := offset + repeats * 64
    if next > bits + 63 ∨ literals > rest.length ∨ run % 2 = 1 ∧ next > bits then []
    else
      (if run % 2 = 1 then List.range' offset (repeats * 64) else []) ++ (heldLiterals bits next (rest.take literals) ++
        match bitmapLiterals bits next (rest.take literals) with
        | .error _ => []
        | .ok (_, stop) => heldRuns bits stop (rest.drop literals))
termination_by words.length
decreasing_by
  rw [List.length_drop, List.length_cons]
  omega

variable {bits off : Nat}

/-- Positions in order, from a first one up to the declared bits. -/
def Ascending (bits low : Nat) (poss : List Nat) : Prop :=
  poss.Pairwise (· < ·) ∧ ∀ position ∈ poss, low ≤ position ∧ position < bits

lemma Ascending.append {low middle : Nat} {a b : List Nat} (ha : Ascending bits low a)
    (hmid : ∀ i ∈ a, i < middle) (hb : Ascending bits middle b) (hle : low ≤ middle) :
    Ascending bits low (a ++ b) := by
  refine ⟨pairwise_append.mpr ⟨ha.1, hb.1, fun i hi j hj => (hmid i hi).trans_le (hb.2 j hj).1⟩,
    fun i hi => ?_⟩
  rcases mem_append.mp hi with hi | hi
  · exact ha.2 i hi
  · exact ⟨hle.trans (hb.2 i hi).1, (hb.2 i hi).2⟩

lemma Ascending.nil (bits low : Nat) : Ascending bits low [] := ⟨.nil, by simp⟩

lemma Ascending.length_le {low : Nat} {poss : List Nat} (h : Ascending bits low poss) :
    poss.length ≤ bits := by
  have hsub : poss ⊆ List.range bits := fun i hi => mem_range.mpr (h.2 i hi).2
  have hnd : poss.Nodup := h.1.imp Nat.ne_of_lt
  simpa using (subperm_of_subset hnd hsub).length_le

lemma heldLiterals_ascending (words : List Nat) (off : Nat) :
    Ascending bits off (heldLiterals bits off words) ∧
      ∀ i ∈ heldLiterals bits off words, i < off + 64 * words.length := by
  induction words generalizing off with
  | nil => exact ⟨.nil bits off, by simp [heldLiterals]⟩
  | cons val words ih =>
    simp only [heldLiterals]
    set held := ((List.range 64).filter fun bit => val.testBit bit).map fun bit => off + bit
    have hord : held.Pairwise (· < ·) := pairwise_map.mpr
      ((pairwise_lt_range.filter _).imp fun hlt => by omega)
    have hlow : ∀ i ∈ held, off ≤ i ∧ i < off + 64 := by
      intro i hi
      obtain ⟨b, hb, rfl⟩ := mem_map.mp hi
      have hlt := mem_range.mp (mem_filter.mp hb).1
      omega
    have hsub : ∀ i ∈ held.takeWhile (· < bits), i ∈ held ∧ i < bits := fun i hi =>
      ⟨takeWhile_subset _ hi, by simpa using mem_takeWhile_imp hi⟩
    have hfirst : Ascending bits off (held.takeWhile (· < bits)) :=
      ⟨hord.sublist (takeWhile_sublist _), fun i hi => ⟨(hlow i (hsub i hi).1).1, (hsub i hi).2⟩⟩
    have hmid : ∀ i ∈ held.takeWhile (· < bits), i < off + 64 := fun i hi => (hlow i (hsub i hi).1).2
    split
    · rw [append_nil]
      exact ⟨hfirst, fun i hi => (hmid i hi).trans_le (by rw [length_cons]; omega)⟩
    refine ⟨hfirst.append hmid (ih _).1 (by omega), fun i hi => ?_⟩
    rw [length_cons]
    rcases mem_append.mp hi with hi | hi
    · have := hmid i hi
      omega
    · have := (ih _).2 i hi
      omega

end Memory

section Decoded

variable {bits off idx lastRun stop last : Nat} {poss : List Nat}

lemma bitmapLiterals_eq_ok {stream : List UInt64}
    (h : bitmapLiterals bits off (stream.map toNat) = .ok (poss, stop)) :
    poss = heldLiterals bits off (stream.map toNat) ∧ poss = setBits off stream ∧
      stop = off + 64 * stream.length := by
  induction stream generalizing off poss with
  | nil =>
    cases h
    exact ⟨rfl, rfl, rfl⟩
  | cons word stream ih =>
    obtain ⟨⟨⟩, hset, h⟩ := bind_ok.mp h
    obtain ⟨⟨⟩, hover, h⟩ := bind_ok.mp h
    obtain ⟨⟨more, _⟩, hmore, h⟩ := bind_ok.mp h
    cases h
    obtain ⟨hheld, hbits, rfl⟩ := ih hmore
    rw [reject_ok] at hset hover
    refine ⟨?_, ?_, by rw [length_cons]; omega⟩
    · rw [map_cons, heldLiterals, if_neg (not_or.mpr ⟨hset, hover⟩), hheld, takeWhile_eq_self_iff.mpr]
      intro i hi
      rw [any_eq_true, not_exists] at hset
      simpa [hi] using hset i
    · rw [← singleton_append, setBits_append, setBits_single, hbits]
      rfl

lemma bitmapRuns_eq_ok {stream : List UInt64}
    (h : bitmapRuns bits off idx lastRun (stream.map toNat) = .ok (poss, stop, last)) :
    poss = heldRuns bits off (stream.map toNat) ∧
      ∃ all, expand stream = some all ∧ poss = setBits off all := by
  induction stream using expand.induct generalizing off idx lastRun poss with
  | case1 =>
    rw [map_nil, bitmapRuns] at h
    cases h
    exact ⟨by rw [map_nil, heldRuns], [], by rw [expand], rfl⟩
  | case2 word rest hlit ih =>
    rw [map_cons, bitmapRuns] at h
    obtain ⟨⟨⟩, hrun, h⟩ := bind_ok.mp h
    obtain ⟨⟨⟩, hpad, h⟩ := bind_ok.mp h
    obtain ⟨⟨lit, middle⟩, hlits, h⟩ := bind_ok.mp h
    obtain ⟨⟨more, _, _⟩, hmore, h⟩ := bind_ok.mp h
    cases h
    rw [reject_ok, ← literalsOf_eq] at hrun
    rw [reject_ok] at hpad
    have hstop : ¬(off + word.toNat / 2 % 2 ^ 32 * 64 > bits + 63 ∨
      literalsOf word > (rest.map toNat).length ∨
        word.toNat % 2 = 1 ∧ off + word.toNat / 2 % 2 ^ 32 * 64 > bits) := by
      rw [← or_assoc]
      exact not_or.mpr ⟨hrun, hpad⟩
    have hset : setBits off (replicate (runOf word) (fill (bitOf word))) =
        if word.toNat % 2 = 1 then List.range' off (word.toNat / 2 % 2 ^ 32 * 64) else [] := by
      simp [setBits_fill, runOf_eq, bitOf_eq]
    rw [← literalsOf_eq, ← map_take] at hlits
    obtain ⟨hheld, hbits, rfl⟩ := bitmapLiterals_eq_ok hlits
    rw [← literalsOf_eq, ← map_drop] at hmore
    obtain ⟨hrest, words, hwords, hmbi⟩ := ih hmore
    constructor
    · rw [map_cons, heldRuns]
      simp only [← literalsOf_eq, ← map_take, ← map_drop, hlits, ← hheld, ← hrest, append_assoc]
      rw [if_neg hstop]
    · refine ⟨_, expand_cons.mpr ⟨hlit, words, hwords, rfl⟩, ?_⟩
      rw [setBits_append, setBits_append, hset, length_append, length_replicate, runOf_eq, hbits,
        hmbi, Nat.mul_add,
        ← Nat.add_assoc, Nat.mul_comm 64 (word.toNat / 2 % 2 ^ 32)]
  | case3 word rest hlit =>
    rw [map_cons, bitmapRuns] at h
    obtain ⟨⟨⟩, hrun, h⟩ := bind_ok.mp h
    rw [reject_ok, length_map, ← literalsOf_eq] at hrun
    omega

lemma heldRuns_ascending (stream : List UInt64) (off : Nat) :
    Ascending bits off (heldRuns bits off (stream.map toNat)) := by
  induction stream using expand.induct generalizing off with
  | case1 =>
    rw [map_nil, heldRuns]
    exact .nil bits off
  | case2 word rest hlit ih =>
    rw [map_cons, heldRuns]
    simp only [← literalsOf_eq, ← map_take, ← map_drop]
    split
    · exact .nil bits off
    rename_i hstop
    push Not at hstop
    obtain ⟨-, -, hpad⟩ := hstop
    generalize word.toNat / 2 % 2 ^ 32 * 64 = run at hpad ⊢
    have hlits := @heldLiterals_ascending bits ((rest.take (literalsOf word)).map toNat) (off + run)
    have hrun : ∀ i ∈ (if word.toNat % 2 = 1 then List.range' off run else []), off ≤ i ∧
        i < off + run ∧ i < bits := by
      intro i hi
      split at hi
      · have hi := mem_range'_1.mp hi
        omega
      · cases hi
    have hord : (if word.toNat % 2 = 1 then List.range' off run else []).Pairwise (· < ·) := by
      split
      · exact pairwise_lt_range'
      · exact .nil
    refine Ascending.append ⟨hord, fun i hi => ⟨(hrun i hi).1, (hrun i hi).2.2⟩⟩
      (fun i hi => (hrun i hi).2.1) ?_
      (Nat.le_add_right _ _)
    refine hlits.1.append hlits.2 ?_ (Nat.le_add_right _ _)
    split
    · exact .nil _ _
    rename_i hok
    obtain ⟨-, -, rfl⟩ := bitmapLiterals_eq_ok hok
    rw [length_map]
    exact ih _
  | case3 word rest hlit =>
    rw [map_cons, heldRuns, if_pos (.inr (.inl (by rw [length_map, ← literalsOf_eq]; omega)))]
    exact .nil bits off

lemma bitmapWords_eq (bytes : Bytes) (start count : Nat) :
    bitmapWords count ((bytes.drop start).take (count * 8)) =
      (wordsAt bytes start count).map toNat := by
  induction count generalizing start with
  | zero => rfl
  | succ count ih =>
    have hlt : beNat ((bytes.drop start).take 8) < 2 ^ 64 := by
      refine (beNat_lt _).trans_le ?_
      exact Nat.pow_le_pow_right (by decide) (length_take_le _ _)
    have hfirst : ((bytes.drop start).take ((count + 1) * 8)).take 8 = (bytes.drop start).take 8 := by
      rw [take_take, min_eq_left (by omega)]
    have hrest : ((bytes.drop start).take ((count + 1) * 8)).drop 8 =
        (bytes.drop (start + 8)).take (count * 8) := by
      rw [drop_take, drop_drop, Nat.add_mul, Nat.one_mul, Nat.add_sub_cancel]
    have hnext : ∀ i, start + (i + 1) * 8 = start + 8 + i * 8 := by omega
    rw [bitmapWords, hfirst, hrest, ih]
    simp only [wordsAt, range_succ_eq_map, map_cons, map_map, Function.comp_def,
      Nat.succ_eq_add_one, hnext, Nat.zero_mul,
      Nat.add_zero, UInt64.toNat_ofNat_of_lt' hlt]

end Decoded

/-- The positions that the decoder holds when it stops, whether it accepts or not. -/
def bitmapHeld (bytes : Bytes) (mx : Nat) : List Nat :=
  let stream : Except Error (Nat × List Nat) := do
    let (bits, rest) ← readU32 bytes
    reject (bits > mx) (invalid "bitmap exceeds shared entries")
    let (words, rest) ← readU32 rest
    reject (rest.length < words * 8) (invalid "truncated bitmap")
    let (current, _) ← readU32 (rest.drop (words * 8))
    reject (words = 0 ∨ current ≥ words) (invalid "invalid bitmap run pointer")
    .ok (bits, bitmapWords words (rest.take (words * 8)))
  match stream with
  | .error _ => []
  | .ok (bits, words) => heldRuns bits 0 words

section Agreement

variable {bytes rest : Bytes} {cursor mx n : Nat}

lemma readU32_eq_ok (h : readU32 bytes = .ok (n, rest)) :
    n = beNat (bytes.take 4) ∧ rest = bytes.drop 4 := by
  obtain ⟨⟨⟩, -, h⟩ := bind_ok.mp h
  cases h
  exact ⟨rfl, rfl⟩

lemma bitmapHeld_ascending (bytes : Bytes) (mx : Nat) : Ascending mx 0 (bitmapHeld bytes mx) := by
  simp only [bitmapHeld]
  split
  · exact .nil _ _
  rename_i hstream
  simp only [bind_ok, reject_ok] at hstream
  obtain ⟨⟨bits, after⟩, -, -, hle, ⟨words, after'⟩, -, -, -, ⟨cur, _⟩, -, -, -, hstream⟩ := hstream
  cases hstream
  have hasc := @heldRuns_ascending bits (wordsAt after' 0 words) 0
  rw [← bitmapWords_eq, drop_zero] at hasc
  exact ⟨hasc.1, fun i hi => ⟨Nat.zero_le _, (hasc.2 i hi).2.trans_le (not_lt.mp hle)⟩⟩

lemma bitmap_eq_ok {poss : List Nat} (h : bitmap (bytes.drop cursor) mx = .ok (poss, rest)) :
    poss = bitmapHeld (bytes.drop cursor) mx ∧
      rest = bytes.drop (cursor + 8 + beNat ((bytes.drop (cursor + 4)).take 4) * 8 + 4) ∧
      ∃ all, expand (wordsAt bytes (cursor + 8) (beNat ((bytes.drop (cursor + 4)).take 4))) = some all ∧
        poss = setBits 0 all := by
  simp only [bitmap, bind_ok] at h
  obtain ⟨⟨bits, after⟩, hbits, ⟨⟩, hle, ⟨words, after'⟩, hwords, ⟨⟩, hroom, ⟨cur, after''⟩, hcur,
    ⟨⟩, hpointer,
    ⟨set, stop, last⟩, hruns, -, -, h⟩ := h
  have hheld : bitmapHeld (bytes.drop cursor) mx =
      heldRuns bits 0 (bitmapWords words (after'.take (words * 8))) := by
    simp only [bitmapHeld, hbits, hle, hwords, hroom, hcur, hpointer, bind, Except.bind]
  cases h
  obtain ⟨-, rfl⟩ := readU32_eq_ok hbits
  obtain ⟨rfl, rfl⟩ := readU32_eq_ok hwords
  obtain ⟨-, rfl⟩ := readU32_eq_ok hcur
  simp only [drop_drop, Nat.add_assoc] at hruns hheld ⊢
  rw [bitmapWords_eq] at hruns hheld
  obtain ⟨hpos, all, hall, hset⟩ := bitmapRuns_eq_ok hruns
  exact ⟨hpos.trans hheld.symm, congrArg (bytes.drop ·) (by omega), all, hall, hset⟩

lemma parse_frame {stop objects next : Nat} {ewah : Ewah}
    (h : Ewah.parse bytes cursor stop objects = .ok (ewah, next)) :
    ewah = ⟨cursor + 8, beNat ((bytes.drop (cursor + 4)).take 4)⟩ ∧
      next = ewah.start + ewah.words * 8 + 4 := by
  simp only [Ewah.parse, bind_ok] at h
  obtain ⟨bits, -, words, hwords, -, -, -, -, current, -, framing, -, -, -, -, -, -, -, h⟩ := h
  cases h
  rw [Bitmap.word, number] at hwords
  split at hwords
  · cases hwords
    exact ⟨rfl, rfl⟩
  · cases hwords

lemma xorFrom_mono {ewah : Ewah} {pos out bud bud' left : Nat} {output res : List UInt64}
    (h : ewah.xorFrom bytes pos out output bud = .ok (res, left)) (hle : bud ≤ bud') :
    ∃ left, ewah.xorFrom bytes pos out output bud' = .ok (res, left) := by
  fun_induction Ewah.xorFrom ewah bytes pos out output bud generalizing bud' with
  | case2 pos out output bud hend =>
    cases h
    exact ⟨bud', by rw [Ewah.xorFrom, if_neg hend]⟩
  | case1 pos out output bud hlt ih =>
    simp only [bind_ok] at h
    obtain ⟨hdr, hhd, spent, hcha, run, hrun, lits, hlit, h⟩ := h
    rw [charge] at hcha
    split at hcha
    · rename_i hroom
      cases hcha
      obtain ⟨left, hleft⟩ := ih hdr _ _ h (Nat.sub_le_sub_right hle _)
      refine ⟨left, ?_⟩
      rw [Ewah.xorFrom, if_pos hlt]
      simp only [bind_ok]
      exact ⟨hdr, hhd, _, if_pos (hroom.trans hle), run, hrun, lits, hlit, hleft⟩
    · cases hcha

end Agreement

/-- Whatever the stream announces, the decoder holds no more positions than the maximum. What it accepts it
gives in order: exactly the set bits of the words of the stream, which are those that the decoder of pack
bitmaps sets when it accepts the stream too. -/
theorem bitmap_positions (bytes : Bytes) (cursor maximum : Nat) :
    (bitmapHeld (bytes.drop cursor) maximum).length ≤ maximum ∧
    ∀ positions rest, bitmap (bytes.drop cursor) maximum = .ok (positions, rest) →
      positions = bitmapHeld (bytes.drop cursor) maximum ∧ positions.Pairwise (· < ·) ∧ (∀ i ∈ positions, i < maximum) ∧
      (∃ all, expand (wordsAt bytes (cursor + 8) (beNat ((bytes.drop (cursor + 4)).take 4))) = some all ∧
        ∀ i, i ∈ positions ↔ bit all i = true) ∧
      ∀ stop objects ewah next, Ewah.parse bytes cursor stop objects = .ok (ewah, next) →
        rest = bytes.drop next ∧
          ∀ budget result left, ewah.xorInto bytes (List.replicate (wordCount objects) 0) budget = .ok (result, left) →
            ∀ i, i ∈ positions ↔ bit result i = true := by
  have hasc := bitmapHeld_ascending (bytes.drop cursor) maximum
  refine ⟨hasc.length_le, fun positions rest h => ?_⟩
  obtain ⟨hheld, hrest, all, hall, rfl⟩ := bitmap_eq_ok h
  refine ⟨hheld, hheld ▸ hasc.1, fun i hi => ?_, ⟨all, hall, fun i => mem_setBits⟩, ?_⟩
  · rw [hheld] at hi
    exact (hasc.2 i hi).2
  intro stop objects ewah next hpar
  have hin := held_of_parse hpar
  obtain ⟨hewah, hnext⟩ := parse_frame hpar
  have hall' : storedWords bytes ewah = all := by rw [storedWords, hewah, hall, Option.getD_some]
  refine ⟨by rw [hrest, hnext, hewah], fun budget result left hxor i => ?_⟩
  obtain ⟨left, hmore⟩ := xorFrom_mono hxor (Nat.le_max_left budget all.length)
  have hsum : ewah.xorInto bytes (List.replicate (wordCount objects) 0) (max budget all.length) =
      .ok (xorWords (List.replicate (wordCount objects) 0) all, max budget all.length - all.length) := by
    rw [← hall']
    exact hin.xorInto_eq (by simp) (Nat.le_max_right _ _)
  rw [Ewah.xorInto, hmore] at hsum
  cases hsum
  rw [mem_setBits]
  by_cases hi : i / 64 < wordCount objects
  · rw [bit_xorWords _ _ _ (by simpa using hi), bit_zeros, Bool.false_xor]
  · have hlen := hall' ▸ hin.inside.length
    rw [bit_of_length_le (by omega), bit_of_length_le (by rw [length_xorWords, length_replicate]; omega)]

end Girt.IndexFile
