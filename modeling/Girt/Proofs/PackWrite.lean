import Mathlib.Data.Nat.Bitwise
import Girt.Pack.Write
import Girt.Proofs.PackIndex
import Girt.Proofs.Recorded

/-!
# Written pack indexes are valid

Looking up an identity gives the offset and the checksum it was written with. What lookups find in any
validated index is stated beside the written one.
-/

namespace Girt.Pack
open ByteLib RadixLib Index List
open Bool (false_eq_true)
open List (range range' replicate)

variable {digs : Digests} {ents : List IndexEntry} {checksum : ObjectId}

section Tables

variable {α : Type} {l : List α} {bytes pre after : Bytes} {start i : Nat}

lemma table_at {f : α → Bytes} {width : Nat} (hbs : bytes = pre ++ (l.flatMap f ++ after))
    (hst : pre.length = start) (hwd : ∀ x ∈ l, (f x).length = width) (hi : i < l.length) :
    start + i * width + width ≤ bytes.length ∧
      (bytes.drop (start + i * width)).take width = f l[i] := by
  subst hbs hst
  exact slice_table pre after hwd hi

lemma word_at {f : α → Nat} (hbs : bytes = pre ++ ((l.flatMap fun x => beBytes 4 (f x)) ++ after))
    (hst : pre.length = start) (hi : i < l.length) (hf : f l[i] < 2 ^ 32) :
    word bytes (start + i * 4) = .ok (f l[i]) := by
  obtain ⟨hle, htake⟩ := table_at hbs hst (fun x _ => beBytes_length 4 (f x)) hi
  rw [word, if_pos hle, htake, beNat_beBytes (by simpa using hf)]

end Tables

section Layout

variable {ents : List IndexEntry}
variable {out : Bytes}

def isLarge (entry : IndexEntry) : Bool := 0x80000000 ≤ entry.offset.toNat

/-- The words of the offset table, after some large offsets. -/
def rawOffsets (large : Nat) : List IndexEntry → List Nat
  | [] => []
  | entry :: entries =>
    if isLarge entry then (large ||| 0x80000000) :: rawOffsets (large + 1) entries
    else entry.offset.toNat :: rawOffsets large entries

def initialOf (entry : IndexEntry) : Nat := firstByte entry.id.bytes

def fanoutOf (entries : List IndexEntry) : Bytes :=
  (List.range 256).flatMap fun first => beBytes 4 (below initialOf entries (first + 1))

abbrev namesOf (entries : List IndexEntry) : Bytes := entries.flatMap fun entry => entry.id.bytes

abbrev crcsOf (entries : List IndexEntry) : Bytes := entries.flatMap fun entry => beBytes 4 entry.crc.toNat

abbrev rawsOf (entries : List IndexEntry) : Bytes := (rawOffsets 0 entries).flatMap (beBytes 4)

abbrev largesOf (entries : List IndexEntry) : Bytes := (entries.filter isLarge).flatMap fun entry => beBytes 8 entry.offset.toNat

def layout (entries : List IndexEntry) (checksum : ObjectId) : Bytes :=
  (magic ++ [0, 0, 0, 2]) ++ fanoutOf entries ++ namesOf entries ++ crcsOf entries ++ rawsOf entries ++ largesOf entries ++ checksum.bytes

lemma put_settled (more : Bytes) :
    Settled (· = out ++ more) (2 ^ 64 - 1 < out.length + more.length) (put out more) := by
  unfold put
  split_ifs with h
  · rfl
  · exact not_le.mp h

lemma putAll_settled {α : Type} (f : α → Bytes) (l : List α) : Settled (· = out ++ l.flatMap f)
    (2 ^ 64 - 1 < out.length + (l.flatMap f).length) (l.foldlM (fun out x => put out (f x)) out) := by
  induction l generalizing out with
  | nil => exact (append_nil out).symm
  | cons x l ih =>
    rw [foldlM_cons, flatMap_cons, length_append]
    refine (put_settled _).bind (by omega) ?_
    rintro _ rfl
    exact ih.mono (by rw [length_append]; omega) (by rintro _ rfl; exact append_assoc _ _ _)

lemma countEntries_settled (ents : List IndexEntry) : Settled (· = tally initialOf 256 ents) (2 ^ 32 ≤ ents.length)
    (ents.foldlM countEntry (replicate 256 0)) := by
  induction ents using reverseRecOn with
  | nil => rfl
  | append_singleton ents entry ih =>
    rw [foldlM_concat, length_append]
    refine ih.bind (by omega) ?_
    rintro _ rfl
    have hle : (bucket initialOf ents (initialOf entry)).length ≤ ents.length := length_filter_le _ _
    have hini : initialOf entry < 256 := UInt8.toNat_lt _
    rw [← getD_tally hini] at hle
    refine settled_reject (fun h => h.trans (Nat.add_le_add_right hle 1)) fun _ => ?_
    rw [tally, foldl_append]
    rfl

@[simp] lemma length_rawOffsets (large : Nat) (ents : List IndexEntry) :
    (rawOffsets large ents).length = ents.length := by
  induction ents generalizing large with
  | nil => rfl
  | cons entry ents ih =>
    rw [rawOffsets]
    split_ifs <;> rw [length_cons, length_cons, ih]

variable {st : Bytes × Nat}

lemma putTotals_settled (n : Nat) : Settled
    (fun st => (∀ i < n, below initialOf ents (i + 1) < 2 ^ 32) ∧
      st = (out ++ (range n).flatMap fun i => beBytes 4 (below initialOf ents (i + 1)), below initialOf ents n))
    (2 ^ 32 ≤ ents.length ∨ 2 ^ 64 - 1 < out.length + n * 4)
    (((range n).map fun d => (bucket initialOf ents d).length).foldlM putTotal (out, 0)) := by
  induction n with
  | zero => exact ⟨nofun, by simp [below]⟩
  | succ n ih =>
    rw [range_succ, map_append, map_singleton, foldlM_concat, flatMap_append]
    refine ih.bind (by omega) ?_
    rintro _ ⟨hbound, rfl⟩
    have hle : below initialOf ents (n + 1) ≤ ents.length := length_filter_le _ _
    have hlen : ((range n).flatMap fun i => beBytes 4 (below initialOf ents (i + 1))).length = n * 4 := by
      rw [length_table fun _ _ => beBytes_length 4 _, length_range]
    simp only [putTotal, ← below_succ]
    refine settled_reject (fun h => .inl (h.trans hle)) fun hlt => (put_settled _).bind (fun h => .inr ?_) ?_
    · rw [length_append, hlen, beBytes_length] at h
      omega
    · rintro _ rfl
      refine ⟨fun i hi => ?_, by rw [append_assoc, flatMap_singleton]⟩
      rcases (Nat.lt_succ_iff.mp hi).lt_or_eq with hi | rfl
      · exact hbound i hi
      · exact not_le.mp hlt

lemma putTotals_fanout : Settled
    (fun st => (∀ i < 256, below initialOf ents (i + 1) < 2 ^ 32) ∧
      st = (magic ++ [0, 0, 0, 2] ++ fanoutOf ents, below initialOf ents 256))
    (2 ^ 32 ≤ ents.length) ((tally initialOf 256 ents).foldlM putTotal (magic ++ [0, 0, 0, 2], 0)) := by
  rw [tally_eq]
  exact (putTotals_settled 256).mono (fun h => h.resolve_right (by decide)) fun _ h => h

@[simp] lemma length_magic : magic.length = 4 := rfl

@[simp] lemma length_fanoutOf : (fanoutOf ents).length = 1024 := by
  rw [fanoutOf, length_table (fun _ _ => beBytes_length 4 _), length_range]

@[simp] lemma length_crcsOf : (crcsOf ents).length = ents.length * 4 := length_table (fun _ _ => beBytes_length 4 _)

@[simp] lemma length_rawsOf : (rawsOf ents).length = ents.length * 4 := by
  rw [length_table (fun _ _ => beBytes_length 4 _), length_rawOffsets]

@[simp] lemma length_largesOf : (largesOf ents).length = (ents.filter isLarge).length * 8 :=
  length_table (fun _ _ => beBytes_length 8 _)

lemma putOffset_settled (entry : IndexEntry) : Settled
    (fun next => (isLarge entry → st.2 ≠ 2 ^ 31) ∧ next = if isLarge entry then (st.1 ++ beBytes 4 (st.2 ||| 0x80000000), st.2 + 1)
      else (st.1 ++ beBytes 4 entry.offset.toNat, st.2))
    (isLarge entry ∧ st.2 = 2 ^ 31 ∨ 2 ^ 64 - 1 < st.1.length + 4) (putOffset st entry) := by
  unfold putOffset
  cases hbig : isLarge entry with
  | false =>
    rw [if_pos (not_le.mp (of_decide_eq_false hbig))]
    refine (put_settled _).bind (by rw [beBytes_length]; exact .inr) ?_
    rintro _ rfl
    exact ⟨nofun, rfl⟩
  | true =>
    rw [if_neg (not_lt.mpr (of_decide_eq_true hbig))]
    refine settled_reject (fun h => .inl ⟨rfl, h⟩) fun hne =>
      (put_settled _).bind (by rw [beBytes_length]; exact .inr) ?_
    rintro _ rfl
    exact ⟨fun _ => hne, rfl⟩

lemma putOffsets_settled {large : Nat} (hbig : large ≤ 2 ^ 31) : Settled
    (fun st => large + (ents.filter isLarge).length ≤ 2 ^ 31 ∧
      st = (out ++ (rawOffsets large ents).flatMap (beBytes 4), large + (ents.filter isLarge).length))
    (2 ^ 31 < large + (ents.filter isLarge).length ∨ 2 ^ 64 - 1 < out.length + ((rawOffsets large ents).flatMap (beBytes 4)).length)
    (ents.foldlM putOffset (out, large)) := by
  induction ents generalizing out large with
  | nil => exact ⟨hbig, by simp [rawOffsets]⟩
  | cons entry ents ih =>
    have hput := @putOffset_settled (out, large) entry
    rw [foldlM_cons, rawOffsets, filter_cons]
    cases hen : isLarge entry with
    | false =>
      simp only [hen, false_eq_true, if_false, false_and, false_or, flatMap_cons, length_append,
        beBytes_length] at hput ⊢
      refine hput.bind (by omega) ?_
      rintro _ ⟨-, rfl⟩
      refine (ih hbig).mono (by simp only [length_append, beBytes_length]; omega) ?_
      rintro _ ⟨hnum, rfl⟩
      exact ⟨hnum, by rw [append_assoc]⟩
    | true =>
      simp only [hen, if_true, true_and, true_implies, flatMap_cons, length_append, beBytes_length,
        length_cons] at hput ⊢
      refine hput.bind (by omega) ?_
      rintro _ ⟨hne, rfl⟩
      refine (@ih _ (large + 1) (by omega)).mono (by simp only [length_append, beBytes_length]; omega) ?_
      rintro _ ⟨hnum, rfl⟩
      exact ⟨by omega, by rw [append_assoc, Nat.add_right_comm, Nat.add_assoc]⟩

lemma putLarges_eq (out : Bytes) : ents.foldlM putLarge out =
    (ents.filter isLarge).foldlM (fun out entry => put out (beBytes 8 entry.offset.toNat)) out := by
  induction ents generalizing out with
  | nil => rfl
  | cons entry ents ih =>
    rw [foldlM_cons, filter_cons]
    cases hbig : isLarge entry with
    | false =>
      rw [putLarge, if_neg (of_decide_eq_false hbig)]
      exact ih out
    | true =>
      rw [if_pos rfl, foldlM_cons, putLarge, if_pos (of_decide_eq_true hbig)]
      exact congrArg _ (funext ih)

/-- An index is written unless its entries or its large offsets cannot be counted. -/
lemma encodeIndex_settled (digs : Digests) {checksum : ObjectId}
    (hform : ∀ entry ∈ ents, entry.id.format = checksum.format) : Settled
    (fun bytes => bytes = layout ents checksum ++ (digs.digest checksum.format (layout ents checksum)).bytes ∧
      (∀ first < 256, below initialOf ents (first + 1) < 2 ^ 32) ∧ (ents.filter isLarge).length ≤ 2 ^ 31)
    (2 ^ 32 ≤ ents.length ∨ 2 ^ 31 < (ents.filter isLarge).length) (encodeIndex digs ents checksum) := by
  have hwd : checksum.format.digestLen ≤ 32 := by cases checksum.format <;> decide
  have hpro : ents.length * checksum.format.digestLen ≤ ents.length * 32 := Nat.mul_le_mul_left _ hwd
  have hnames : (namesOf ents).length = ents.length * checksum.format.digestLen :=
    length_table fun entry hen => by rw [entry.id.width, hform entry hen]
  have hroom : 2 ^ 64 - 1 < (layout ents checksum).length + (digs.digest checksum.format (layout ents checksum)).bytes.length →
      2 ^ 32 ≤ ents.length ∨ 2 ^ 31 < (ents.filter isLarge).length := by
    simp only [ObjectId.width, digs.digest_format]
    simp only [layout, length_append, length_magic, length_cons, length_nil, length_fanoutOf,
      hnames, length_crcsOf, length_rawsOf, length_largesOf, checksum.width]
    omega
  have hwrite : Settled (fun out => out = layout ents checksum ∧
      (∀ first < 256, below initialOf ents (first + 1) < 2 ^ 32) ∧ (ents.filter isLarge).length ≤ 2 ^ 31)
      (2 ^ 32 ≤ ents.length ∨ 2 ^ 31 < (ents.filter isLarge).length) (writeIndex ents checksum []) := by
    simp only [writeIndex, putLarges_eq]
    simp only [layout, length_append, namesOf, crcsOf, rawsOf, largesOf] at hroom
    refine (put_settled _).bind (fun hfull =>
      hroom (by simp only [length_append, length_nil] at hfull; omega)) ?_
    rintro _ rfl
    refine (countEntries_settled ents).bind .inl ?_
    rintro _ rfl
    refine putTotals_fanout.bind .inl ?_
    rintro _ ⟨hbound, rfl⟩
    refine (putAll_settled _ ents).bind
      (fun hfull => hroom (by simp only [length_append] at hfull; omega)) ?_
    rintro _ rfl
    refine (putAll_settled _ ents).bind
      (fun hfull => hroom (by simp only [length_append] at hfull; omega)) ?_
    rintro _ rfl
    refine (putOffsets_settled (Nat.zero_le _)).bind (fun hfull => ?_) ?_
    · simp only [length_append, Nat.zero_add] at hfull
      exact hfull.elim .inr fun hfull => hroom (by omega)
    rintro _ ⟨hnum, rfl⟩
    refine (putAll_settled _ _).bind (fun hfull => hroom (by simp only [length_append] at hfull; omega)) ?_
    rintro _ rfl
    refine (put_settled _).mono (fun hfull => hroom (by simp only [length_append] at hfull; omega)) ?_
    rintro _ rfl
    exact ⟨rfl, hbound, by simpa using hnum⟩
  refine hwrite.bind id ?_
  rintro _ ⟨rfl, hrest⟩
  exact (put_settled _).mono hroom fun _ h => ⟨h, hrest⟩

end Layout

section Raw

variable {ents : List IndexEntry}
variable {entry : IndexEntry}
variable {i : Nat}

def slotOf (entries : List IndexEntry) (i : Nat) : Nat := ((entries.take i).filter isLarge).length

lemma getElem?_rawOffsets (large : Nat) (ents : List IndexEntry) (i : Nat) :
    (rawOffsets large ents)[i]? = ents[i]?.map fun entry =>
      if isLarge entry then (large + slotOf ents i) ||| 0x80000000 else entry.offset.toNat := by
  induction ents generalizing large i with
  | nil => rfl
  | cons entry ents ih =>
    cases hbig : isLarge entry with
    | true =>
      rw [rawOffsets, if_pos hbig]
      cases i with
      | zero => simp [slotOf, hbig]
      | succ i =>
        rw [getElem?_cons_succ, getElem?_cons_succ, ih, slotOf, slotOf, take_succ_cons, filter_cons_of_pos hbig,
          length_cons, Nat.add_right_comm, Nat.add_assoc]
    | false =>
      rw [rawOffsets, hbig]
      cases i with
      | zero => simp [hbig]
      | succ i =>
        rw [if_neg Bool.false_ne_true, getElem?_cons_succ, getElem?_cons_succ, ih, slotOf, slotOf,
          take_succ_cons,
          filter_cons_of_neg (by simp [hbig])]

lemma getElem?_filter_slotOf (hen : ents[i]? = some entry) (hbig : isLarge entry) :
    (ents.filter isLarge)[slotOf ents i]? = some entry := by
  induction ents generalizing i with
  | nil => cases hen
  | cons first ents ih =>
    cases i with
    | zero =>
      cases hen
      rw [filter_cons_of_pos hbig]
      rfl
    | succ i =>
      cases hfirst : isLarge first with
      | true =>
        rw [filter_cons_of_pos hfirst, slotOf, take_succ_cons, filter_cons_of_pos hfirst, length_cons,
          getElem?_cons_succ]
        exact ih hen
      | false =>
        rw [filter_cons_of_neg (by simp [hfirst]), slotOf, take_succ_cons,
          filter_cons_of_neg (by simp [hfirst])]
        exact ih hen

lemma slotOf_lt (hen : ents[i]? = some entry) (hbig : isLarge entry) :
    slotOf ents i < (ents.filter isLarge).length := by
  obtain ⟨hlt, -⟩ := List.getElem?_eq_some_iff.mp (getElem?_filter_slotOf hen hbig)
  exact hlt

lemma slotOf_succ (hen : ents[i]? = some entry) :
    slotOf ents (i + 1) = slotOf ents i + if isLarge entry then 1 else 0 := by
  rw [slotOf, take_add_one, hen, filter_append, length_append, slotOf]
  cases hbig : isLarge entry <;> simp [hbig]

lemma large_word {slot : Nat} (h : slot < 2 ^ 31) :
    slot ||| 0x80000000 = 2 ^ 31 + slot ∧ (slot ||| 0x80000000) &&& 0x80000000 ≠ 0 ∧
      (slot ||| 0x80000000) &&& 0x7fffffff = slot := by
  have hor : slot ||| 0x80000000 = 2 ^ 31 + slot := by
    rw [Nat.or_comm]
    have hsum := Nat.two_pow_add_eq_or_of_lt h 1
    simpa using hsum.symm
  have hmod : (slot ||| 0x80000000) &&& 0x7fffffff = (slot ||| 0x80000000) % 2 ^ 31 :=
    Nat.and_two_pow_sub_one_eq_mod _ 31
  have hbit : (slot ||| 0x80000000) &&& 0x80000000 =
      ((slot ||| 0x80000000).testBit 31).toNat * 2 ^ 31 := Nat.and_two_pow _ 31
  have htest : (slot ||| 0x80000000).testBit 31 := by
    simp [show Nat.testBit 0x80000000 31 by decide]
  refine ⟨hor, ?_, ?_⟩
  · rw [hbit, htest]
    decide
  · omega

lemma small_word {off : Nat} (h : off < 2 ^ 31) : off &&& 0x80000000 = 0 := by
  have hbit : off &&& 0x80000000 = (off.testBit 31).toNat * 2 ^ 31 := Nat.and_two_pow _ 31
  rw [hbit, Nat.testBit_lt_two_pow h]
  rfl

end Raw

section Laid

/-- Bytes laid out for entries of one format, with their own checksum behind. -/
structure Laid (entries : List IndexEntry) (checksum : ObjectId) (tail bytes : Bytes) : Prop where
  bytes_eq : bytes = layout entries checksum ++ tail
  tail : tail.length = checksum.format.digestLen
  format : ∀ entry ∈ entries, entry.id.format = checksum.format
  counted : ∀ first < 256, below initialOf entries (first + 1) < 2 ^ 32
  large : (entries.filter isLarge).length ≤ 2 ^ 31

namespace Laid

variable {ents : List IndexEntry} {checksum : ObjectId} {tail bytes : Bytes} (h : Laid ents checksum tail bytes)
variable {i : Nat}

/-- The parts of an index, of which the last has both checksums. -/
def tables (entries : List IndexEntry) (checksum : ObjectId) (tail : Bytes) : List Bytes :=
  [magic ++ [0, 0, 0, 2], fanoutOf entries, namesOf entries, crcsOf entries, rawsOf entries, largesOf entries, checksum.bytes ++ tail]

include h

lemma parts (k : Nat) {table : Bytes} (htab : (tables ents checksum tail)[k]? = some table) :
    bytes = ((tables ents checksum tail).take k).flatten ++ (table ++ ((tables ents checksum tail).drop (k + 1)).flatten) := by
  obtain ⟨hlt, rfl⟩ := List.getElem?_eq_some_iff.mp htab
  rw [← flatten_cons, ← flatten_append, ← drop_eq_getElem_cons, take_append_drop, h.bytes_eq, layout]
  simp [tables]

lemma width {entry : IndexEntry} (hen : entry ∈ ents) :
    entry.id.bytes.length = checksum.format.digestLen := by
  rw [entry.id.width, h.format entry hen]

lemma length_namesOf : (namesOf ents).length = ents.length * checksum.format.digestLen :=
  length_table fun _ hen => h.width hen

lemma length_eq : bytes.length = 1032 + ents.length * (checksum.format.digestLen + 8) + (ents.filter isLarge).length * 8 +
    2 * checksum.format.digestLen := by
  rw [h.parts 6 rfl]
  simp [tables, h.length_namesOf, checksum.width, h.tail]
  ring

lemma isPrefixOf_magic : magic.isPrefixOf bytes := by
  rw [List.isPrefixOf_iff_prefix, h.parts 0 rfl]
  exact ⟨_, rfl⟩

lemma word_version : word bytes 4 = .ok 2 := by
  rw [h.parts 0 rfl]
  rfl

lemma word_fanout {first : Nat} (hfirst : first < 256) :
    word bytes (8 + first * 4) = .ok (below initialOf ents (first + 1)) := by
  have hword := @word_at _ _ _ _ _ 8 first _ (h.parts 1 rfl) rfl (by simpa using hfirst)
    (by simpa using h.counted first hfirst)
  rwa [getElem_range] at hword

lemma slice_name (hi : i < ents.length) :
    1032 + i * checksum.format.digestLen + checksum.format.digestLen ≤ bytes.length ∧
      (bytes.drop (1032 + i * checksum.format.digestLen)).take checksum.format.digestLen =
      ents[i].id.bytes :=
  table_at (h.parts 2 rfl) (by simp [tables]) (fun _ hen => h.width hen) hi

lemma word_crc (hi : i < ents.length) :
    word bytes (1032 + ents.length * checksum.format.digestLen + i * 4) = .ok ents[i].crc.toNat :=
  word_at (h.parts 3 rfl) (by simp [tables, h.length_namesOf]; ring) hi (UInt32.toNat_lt _)

lemma raw_lt (hi : i < (rawOffsets 0 ents).length) : (rawOffsets 0 ents)[i] < 2 ^ 32 := by
  have hget := getElem?_rawOffsets 0 ents i
  rw [getElem?_eq_getElem hi, getElem?_eq_getElem (by rwa [length_rawOffsets] at hi),
    Option.map_some, Option.some.injEq] at hget
  rw [hget]
  rw [length_rawOffsets] at hi
  split_ifs with hbig
  · have hslot := slotOf_lt (getElem?_eq_getElem hi) hbig
    have hnum := h.large
    rw [Nat.zero_add, (large_word (by omega)).1]
    omega
  · have hsma : ents[i].offset.toNat < 0x80000000 := not_le.mp fun hle => hbig (decide_eq_true hle)
    omega

lemma word_raw (hi : i < ents.length) :
    word bytes (1032 + ents.length * (checksum.format.digestLen + 4) + i * 4) =
      .ok (if isLarge ents[i] then slotOf ents i ||| 0x80000000 else ents[i].offset.toNat) := by
  have hi' : i < (rawOffsets 0 ents).length := by rwa [length_rawOffsets]
  have hword := @word_at _ _ _ _ _ (1032 + ents.length * (checksum.format.digestLen + 4)) i
    (fun n => n) (h.parts 4 rfl)
    (by simp [tables, h.length_namesOf]; ring) hi' (h.raw_lt hi')
  have hget := getElem?_rawOffsets 0 ents i
  rw [getElem?_eq_getElem hi', getElem?_eq_getElem hi, Option.map_some, Option.some.injEq,
    Nat.zero_add] at hget
  rwa [hget] at hword

lemma slice_large (hi : i < (ents.filter isLarge).length) :
    slice bytes (1032 + ents.length * (checksum.format.digestLen + 4) + ents.length * 4 + i * 8) 8 =
      some (beBytes 8 (ents.filter isLarge)[i].offset.toNat) := by
  obtain ⟨hle, htake⟩ := table_at (h.parts 5 rfl)
    (show _ = 1032 + ents.length * (checksum.format.digestLen + 4) + ents.length * 4 by simp [tables, h.length_namesOf]; ring)
    (fun _ _ => beBytes_length 8 _) hi
  exact slice_eq_some.mpr ⟨hle, htake.symm⟩

lemma trailerHash_eq :
    trailerHash checksum.format bytes (bytes.length - 2 * checksum.format.digestLen) =
      .ok checksum := by
  have hpar := h.parts 6 rfl
  have hpla : bytes.length - 2 * checksum.format.digestLen =
      ((tables ents checksum tail).take 6).flatten.length := by
    have hlen := congrArg length hpar
    simp only [length_append, checksum.width, h.tail, length_flatten] at hlen ⊢
    simp only [tables, drop_succ_cons, drop_nil, map_nil, sum_nil] at hlen ⊢
    omega
  have hsli : slice bytes ((tables ents checksum tail).take 6).flatten.length checksum.format.digestLen = some checksum.bytes := by
    rw [slice_eq_some, hpar, drop_left' rfl, append_assoc, take_left' checksum.width]
    refine ⟨?_, rfl⟩
    simp only [length_append, checksum.width]
    omega
  rw [hpla, trailerHash, hsli]
  simp

def indexOf (entries : List IndexEntry) (checksum : ObjectId) (packEnd : Nat) : Index :=
  ⟨checksum.format, false, entries.length, (entries.filter isLarge).length, false, packEnd, checksum⟩

lemma checkBuckets_ok (count first : Nat) (hle : first + count ≤ 256) :
    (range' first count).foldlM (checkBucket bytes 8) (below initialOf ents first) =
      .ok (below initialOf ents (first + count)) := by
  induction count generalizing first with
  | zero => rfl
  | succ count ih =>
    have hbuc : checkBucket bytes 8 (below initialOf ents first) first =
        .ok (below initialOf ents (first + 1)) :=
      bind_ok.mpr ⟨_, h.word_fanout (by omega), bind_ok.mpr ⟨(), reject_ok.mpr
        (not_lt.mpr (below_mono initialOf ents (Nat.le_succ first))), rfl⟩⟩
    rw [range'_succ, foldlM_cons, hbuc]
    exact (ih (first + 1) (by omega)).trans (by rw [Nat.add_assoc, Nat.add_comm 1])

lemma parse_eq {packEnd : Nat} (hsma : ∃ entry ∈ ents, isLarge entry = false) :
    Index.parse checksum.format bytes packEnd = .ok (indexOf ents checksum packEnd) := by
  have hlen := h.length_eq
  have hbig : (ents.filter isLarge).length < ents.length := by
    obtain ⟨entry, hen, hnot⟩ := hsma
    refine lt_of_le_of_ne (length_filter_le _ _) fun heq => ?_
    rw [length_filter_eq_length_iff.mp heq entry hen] at hnot
    cases hnot
  have hnum : word bytes (8 + 1020) = .ok ents.length := by
    rw [← below_of_le (fun entry _ => UInt8.toNat_lt _ : ∀ entry ∈ ents, initialOf entry < 256)]
    exact h.word_fanout (show 255 < 256 by decide)
  have hlar : bytes.length - 2 * checksum.format.digestLen - (ents.length * (checksum.format.digestLen + 8) + (8 + 1024)) =
      (ents.filter isLarge).length * 8 := by omega
  have hbuc := h.checkBuckets_ok 256 0 (by decide)
  rw [show below initialOf ents 0 = 0 by simp [below], ← range_eq_range'] at hbuc
  have htab : tableStart (!magic.isPrefixOf bytes) bytes = .ok 8 := by
    rw [h.isPrefixOf_magic]
    exact bind_ok.mpr ⟨_, h.word_version, rfl⟩
  refine reject_bind.mpr ⟨(by omega), bind_ok.mpr ⟨8, htab, bind_ok.mpr ⟨_, hnum,
    reject_bind.mpr ⟨(by omega), reject_bind.mpr ⟨?_, reject_bind.mpr ⟨?_,
      bind_ok.mpr ⟨_, hbuc, bind_ok.mpr ⟨_, h.trailerHash_eq, ?_⟩⟩⟩⟩⟩⟩⟩⟩
  · simp only [h.isPrefixOf_magic, Bool.not_true, false_eq_true, if_false]
    omega
  · simp only [h.isPrefixOf_magic, Bool.not_true, false_eq_true, if_false, hlar, false_and, or_false, not_lt]
    omega
  · simp only [h.isPrefixOf_magic, Bool.not_true, false_eq_true, if_false, hlar, indexOf]
    simp [pure, Except.pure]

variable {packEnd : Nat}

lemma name_eq (hi : i < ents.length) :
    (indexOf ents checksum packEnd).name bytes i = ents[i].id.bytes :=
  (h.slice_name hi).2

lemma below_initial (first : Nat) :
    below ((indexOf ents checksum packEnd).initial bytes) (range ents.length) first =
      below initialOf ents first := by
  have hnames : (range ents.length).map ((indexOf ents checksum packEnd).initial bytes) =
      ents.map initialOf := by
    refine ext_getElem (by simp) fun i hi hi' => ?_
    have hlt : i < ents.length := by simpa using hi'
    simp [initial, h.name_eq hlt, initialOf]
  have hmap : ∀ {α : Type} (digit : α → Nat) (l : List α),
      below digit l first = ((l.map digit).filter (· < first)).length := by
    intro α digit l
    rw [below, filter_map, length_map]
    rfl
  rw [hmap, hmap, hnames]

lemma offset_eq (hi : i < ents.length) (hlow : 12 ≤ ents[i].offset.toNat)
    (hhigh : ents[i].offset.toNat < packEnd) :
    (indexOf ents checksum packEnd).offset bytes i = .ok ents[i].offset.toNat := by
  have hche : checkedOffset ents[i].offset.toNat packEnd = .ok ents[i].offset.toNat :=
    reject_bind.mpr ⟨(by omega), rfl⟩
  have hraw := h.word_raw hi
  simp only [indexOf]
  refine bind_ok.mpr ⟨_, hraw, ?_⟩
  cases hbig : isLarge ents[i] with
  | false =>
    have hsma : ents[i].offset.toNat < 2 ^ 31 := not_le.mp (of_decide_eq_false hbig)
    simp only [false_eq_true, if_false, small_word hsma, if_true]
    exact hche
  | true =>
    have hslot := slotOf_lt (getElem?_eq_getElem hi) hbig
    have hnum := h.large
    obtain ⟨-, hbit, hlow⟩ := large_word (show slotOf ents i < 2 ^ 31 by omega)
    simp only [if_true, hbit, hlow, if_false]
    refine reject_bind.mpr ⟨(not_le.mpr hslot), ?_⟩
    have hget := getElem?_filter_slotOf (getElem?_eq_getElem hi) hbig
    rw [getElem?_eq_getElem hslot, Option.some.injEq] at hget
    unfold largeOffset offsetTable
    simp only [h.slice_large hslot, hget]
    rw [beNat_beBytes (UInt64.toNat_lt _)]
    exact hche

lemma crc_eq (hi : i < ents.length) :
    (indexOf ents checksum packEnd).crc bytes i = .ok (some ents[i].crc.toNat) := by
  unfold Index.crc
  simp only [indexOf, false_eq_true, if_false, h.word_crc hi]
  rfl

/-- After some entries the slots of their large offsets are marked. -/
lemma markSlots_eq {n : Nat} (hn : n ≤ ents.length) :
    (range n).foldlM ((indexOf ents checksum packEnd).markSlot bytes)
      (replicate (ents.filter isLarge).length false) =
      .ok (replicate (slotOf ents n) true ++ replicate ((ents.filter isLarge).length - slotOf ents n) false) := by
  induction n with
  | zero => rfl
  | succ n ih =>
    have hlt : n < ents.length := by omega
    have hen := getElem?_eq_getElem hlt
    rw [range_succ, slotOf_succ hen]
    have hraw := h.word_raw hlt
    have hmark : (indexOf ents checksum packEnd).markSlot bytes
        (replicate (slotOf ents n) true ++ replicate ((ents.filter isLarge).length - slotOf ents n) false) n =
        .ok (replicate (slotOf ents n + if isLarge ents[n] then 1 else 0) true ++
          replicate ((ents.filter isLarge).length - (slotOf ents n + if isLarge ents[n] then 1 else 0)) false) := by
      refine bind_ok.mpr ⟨_, wrapError_eq_ok.mpr hraw, ?_⟩
      cases hbig : isLarge ents[n] with
      | false =>
        have hsma : ents[n].offset.toNat < 2 ^ 31 := not_le.mp (of_decide_eq_false hbig)
        simp [small_word hsma]
      | true =>
        have hslot := slotOf_lt hen hbig
        have hnum := h.large
        obtain ⟨-, hbit, hlow⟩ := large_word (show slotOf ents n < 2 ^ 31 by omega)
        simp only [if_true, hbit, hlow, if_false]
        obtain ⟨rest, hrest⟩ : ∃ rest, (ents.filter isLarge).length - slotOf ents n = rest + 1 :=
          ⟨_, (Nat.sub_add_cancel (by omega)).symm⟩
        have hrest' : (ents.filter isLarge).length - (slotOf ents n + 1) = rest := by omega
        have hfree : (replicate (slotOf ents n) true ++
          replicate (rest + 1) false)[slotOf ents n]? = some false := by
          rw [getElem?_append_right (by rw [length_replicate]), length_replicate, Nat.sub_self]
          rfl
        rw [hrest, hrest', useSlot, hfree]
        rw [set_append_right _ _ (by rw [length_replicate]), length_replicate, Nat.sub_self, replicate_succ,
          set_cons_zero, replicate_succ', append_assoc]
        rfl
    exact foldlM_append_eq_ok (ih (by omega)) (bind_ok.mpr ⟨_, hmark, rfl⟩)

omit h in
lemma slotOf_length : slotOf ents ents.length = (ents.filter isLarge).length := by rw [slotOf, take_length]

/-- Distinct offsets from the end of the header on have an order. -/
lemma order_ok (hdis : (ents.map (·.offset)).Nodup)
    (hbound : ∀ entry ∈ ents, 12 ≤ entry.offset.toNat ∧ entry.offset.toNat < packEnd)
    (hfirst : ∃ entry ∈ ents, entry.offset = 12) :
    ∃ order, (indexOf ents checksum packEnd).order bytes = .ok order := by
  have hoff : List.Forall₂ (fun pos off => (indexOf ents checksum packEnd).offset bytes pos = .ok off)
      (range ents.length) (ents.map (·.offset.toNat)) := by
    refine forall₂_iff_get.mpr ⟨by simp, fun i hi hi' => ?_⟩
    have hlt : i < ents.length := by simpa using hi'
    obtain ⟨hlow, hhigh⟩ := hbound _ (getElem_mem hlt)
    simp only [get_eq_getElem, getElem_range, getElem_map]
    exact h.offset_eq hlt hlow hhigh
  obtain ⟨hperm, hsort, hpairs⟩ := offsetOrder_spec (ents.map (·.offset.toNat))
  have hsame : (offsetOrder (ents.map (·.offset.toNat))).2.Perm (ents.map (·.offset.toNat)) := by
    rw [hsort]
    refine (hperm.map _).trans (.of_eq (ext_getElem (by simp) fun i hi hi' => ?_))
    have hlt : i < ents.length := by simpa using hi'
    simp [hlt]
  have hnd : (offsetOrder (ents.map (·.offset.toNat))).2.Nodup := by
    have hnum := hdis.map (f := UInt64.toNat) (fun a b hab => UInt64.toNat_inj.mp hab)
    rw [map_map] at hnum
    exact hsame.nodup_iff.mpr hnum
  have hmark := @markSlots_eq _ _ _ _ h packEnd _ le_rfl
  rw [slotOf_length, Nat.sub_self, replicate_zero, append_nil] at hmark
  refine ⟨_, order_eq_ok.mpr ⟨_, _, hmark, fun hfal => ?_, hoff, ?_, ?_, rfl⟩⟩
  · cases eq_of_mem_replicate hfal
  · rintro ⟨pair, hpair, heq⟩
    obtain ⟨i, hi⟩ := mem_iff_getElem?.mp hpair
    obtain ⟨hleft, hrt⟩ := getElem?_zip_eq_some.mp hi
    rw [getElem?_tail] at hrt
    obtain ⟨hlt, hget⟩ := List.getElem?_eq_some_iff.mp hleft
    obtain ⟨hlt', hget'⟩ := List.getElem?_eq_some_iff.mp hrt
    have hidx := (List.Nodup.getElem_inj_iff hnd).mp (hget.trans (heq.trans hget'.symm))
    omega
  · -- the offset behind the header is the smallest one
    obtain ⟨entry, hen, hoffs⟩ := hfirst
    have hmem : 12 ∈ (offsetOrder (ents.map (·.offset.toNat))).2 :=
      hsame.mem_iff.mpr (mem_map.mpr ⟨entry, hen, by rw [hoffs]; rfl⟩)
    cases hlist : (offsetOrder (ents.map (·.offset.toNat))).2 with
    | nil =>
      rw [hlist] at hmem
      cases hmem
    | cons head rest =>
      have hhead : 12 ≤ head := by
        obtain ⟨other, hoth, heq⟩ := mem_map.mp (hsame.mem_iff.mp (hlist ▸ (.head _) : head ∈ _))
        rw [← heq]
        exact (hbound other hoth).1
      rw [hlist] at hmem hpairs
      rcases mem_cons.mp hmem with heq | hrest
      · exact heq.symm
      · exact le_antisymm (rel_of_pairwise_cons hpairs hrest) hhead

lemma validate_ok (hsort : ents.Pairwise fun a b => a.id < b.id) (hdis : (ents.map (·.offset)).Nodup)
    (hbound : ∀ entry ∈ ents, 12 ≤ entry.offset.toNat ∧ entry.offset.toNat < packEnd)
    (hfirst : ∃ entry ∈ ents, entry.offset = 12) : (indexOf ents checksum packEnd).validate bytes = .ok () := by
  have hlen := h.length_eq
  refine validate_eq_ok.mpr ⟨rfl, ?_, fun i hi => (h.slice_name hi).1, fun i j hij hj => ?_,
    fun first hlt => ?_,
    h.order_ok hdis hbound hfirst⟩
  · simp only [nameStart, indexOf, false_eq_true, if_false]
    omega
  · have hj' : j < ents.length := hj
    have hi' : i < ents.length := hij.trans hj'
    rw [h.name_eq hi', h.name_eq hj', ← Valid.id_lt_iff]
    · exact pairwise_iff_getElem.mp hsort i j hi' hj' hij
    · rw [h.format _ (getElem_mem hi'), h.format _ (getElem_mem hj')]
  · exact (h.word_fanout hlt).trans (by rw [← @below_initial _ _ _ _ h packEnd]; rfl)

end Laid

end Laid

lemma laid_of_encodeIndex {bytes : Bytes}
    (hform : ∀ entry ∈ ents, entry.id.format = checksum.format)
    (h : encodeIndex digs ents checksum = .ok bytes) :
    Laid ents checksum (digs.digest checksum.format (layout ents checksum)).bytes bytes := by
  obtain ⟨hlay, hcou, hbig⟩ := (encodeIndex_settled digs hform).of_ok h
  exact ⟨hlay, by rw [ObjectId.width, digs.digest_format], hform, hcou, hbig⟩

lemma encodeIndex_total (hform : ∀ entry ∈ ents, entry.id.format = checksum.format)
    (hens : ents.length < 2 ^ 32) (hbig : (ents.filter isLarge).length ≤ 2 ^ 31) :
    ∃ bytes, encodeIndex digs ents checksum = .ok bytes :=
  ((encodeIndex_settled digs hform).total (by omega)).imp fun _ h => h.1

lemma exists_small (hfirst : ∃ entry ∈ ents, entry.offset = 12) :
    ∃ entry ∈ ents, isLarge entry = false := by
  obtain ⟨entry, hen, hoff⟩ := hfirst
  exact ⟨entry, hen, by rw [isLarge, hoff]; rfl⟩

/-- An index is written for all entries that can be counted. The index of entries in the order of their
identities, with distinct offsets of which one is right behind the header, is valid; looking up an identity
gives the offset and the checksum it was written with, and looking up any other finds nothing. -/
theorem encoded_index_reads_back (digests : Digests) (entries : List IndexEntry)
    (checksum : ObjectId) (packEnd : Nat)
    (hformat : ∀ entry ∈ entries, entry.id.format = checksum.format)
    (hsorted : entries.Pairwise fun a b => a.id < b.id)
    (hdistinct : (entries.map (·.offset)).Nodup)
    (hbounds : ∀ entry ∈ entries, 12 ≤ entry.offset.toNat ∧ entry.offset.toNat < packEnd)
    (hfirst : ∃ entry ∈ entries, entry.offset = 12) :
    (entries.length < 2 ^ 32 → (entries.filter isLarge).length ≤ 2 ^ 31 → ∃ bytes, encodeIndex digests entries checksum = .ok bytes) ∧
    ∀ bytes, encodeIndex digests entries checksum = .ok bytes →
      ∃ index, Index.parse checksum.format bytes packEnd = .ok index ∧ index.validate bytes = .ok () ∧
        (∀ entry ∈ entries, ∃ position, index.find bytes entry.id = .ok (some position) ∧
          index.offset bytes position = .ok entry.offset.toNat ∧ index.crc bytes position = .ok (some entry.crc.toNat)) ∧
        ∀ id, (∀ entry ∈ entries, entry.id ≠ id) → index.find bytes id = .ok none := by
  refine ⟨encodeIndex_total hformat, fun bytes hbs => ?_⟩
  have h := laid_of_encodeIndex hformat hbs
  have hpar := @Laid.parse_eq _ _ _ _ h packEnd (exists_small hfirst)
  have hvd := h.validate_ok hsorted hdistinct hbounds hfirst
  obtain ⟨offsets, order, hvd'⟩ := valid_of_validate hpar hvd
  have hide : ∀ i (hi : i < entries.length) (id : ObjectId),
      (Laid.indexOf entries checksum packEnd).identity bytes i = .ok id ↔ entries[i].id = id := by
    intro i hi id
    rw [hvd'.identity_iff hi, h.name_eq hi]
    constructor
    · rintro ⟨hsame, hbs⟩
      exact ObjectId.ext ((hformat _ (getElem_mem hi)).trans hsame.symm) hbs.symm
    · rintro rfl
      exact ⟨hformat _ (getElem_mem hi), rfl⟩
  refine ⟨_, hpar, hvd, fun entry hen => ?_, fun id habs => ?_⟩
  · obtain ⟨i, hi, rfl⟩ := mem_iff_getElem.mp hen
    obtain ⟨found, hgot, hiff⟩ := hvd'.find_spec entries[i].id
    obtain ⟨hlow, hhigh⟩ := hbounds _ (getElem_mem hi)
    refine ⟨i, ?_, h.offset_eq hi hlow hhigh, h.crc_eq hi⟩
    rw [hgot, (hiff i).mpr ⟨hi, (hide i hi _).mpr rfl⟩]
  · obtain ⟨found, hgot, hiff⟩ := hvd'.find_spec id
    rw [hgot]
    cases found with
    | none => rfl
    | some position =>
      obtain ⟨hlt, hid⟩ := (hiff position).mp rfl
      exact absurd ((hide position hlt id).mp hid) (habs _ (getElem_mem _))

section Lookups

lemma length_repeated (byte : UInt8) : (replicate 20 byte).length = ObjectFormat.sha1.digestLen := rfl

/-- Two entries, the second of which comes first in the pack; the offset of the other one is large. -/
def sampleEntries : List IndexEntry :=
  [⟨⟨.sha1, List.replicate 20 1, length_repeated 1⟩, 0x80000005, 7⟩, ⟨⟨.sha1, List.replicate 20 2, length_repeated 2⟩, 12, 8⟩]

lemma sampleEntries_sorted : sampleEntries.Pairwise fun a b => a.id < b.id := by
  have hlt : replicate 20 (1 : UInt8) < replicate 20 2 := by decide
  refine pairwise_pair.mpr ((Valid.id_lt_iff ?_).mpr hlt)
  rfl

lemma sampleEntries_format : ∀ entry ∈ sampleEntries, entry.id.format = (ObjectId.null .sha1).format := by decide

lemma sampleEntries_bounds : ∀ entry ∈ sampleEntries, 12 ≤ entry.offset.toNat ∧ entry.offset.toNat < 2 ^ 32 := by decide

theorem encoded_index_reads_back_sample :
    ∃ bytes, encodeIndex (Proofs.recordedDigests []) sampleEntries (ObjectId.null .sha1) = .ok bytes ∧
      ∃ index, Index.parse .sha1 bytes (2 ^ 32) = .ok index ∧ index.validate bytes = .ok () ∧
        (∀ entry ∈ sampleEntries, ∃ position, index.find bytes entry.id = .ok (some position) ∧
          index.offset bytes position = .ok entry.offset.toNat ∧ index.crc bytes position = .ok (some entry.crc.toNat)) ∧
        index.find bytes (ObjectId.null .sha1) = .ok none := by
  have hsam := encoded_index_reads_back (Proofs.recordedDigests []) sampleEntries
    (ObjectId.null .sha1) (2 ^ 32) sampleEntries_format
    sampleEntries_sorted (by decide) sampleEntries_bounds (by decide)
  obtain ⟨bytes, hbs⟩ := hsam.1 (by decide) (by decide)
  obtain ⟨index, hpar, hvd, hfind, habs⟩ := hsam.2 bytes hbs
  exact ⟨bytes, hbs, index, hpar, hvd, hfind, habs _ (by decide)⟩

/-- A validated index orders its positions by offset, the ranges of its entries tile the entries of the pack,
and looking up an offset, an identity or a prefix finds exactly the positions that have it. -/
theorem validated_index_lookups {format : ObjectFormat} {bytes : Bytes} {packEnd : Nat} {index : Index}
    (hparse : Index.parse format bytes packEnd = .ok index) (hvalid : index.validate bytes = .ok ()) :
    (∃ order, index.order bytes = .ok order ∧ order.order.Perm (List.range index.count) ∧ order.order.Pairwise fun a b =>
      ∃ x y, index.offset bytes a = .ok x ∧ index.offset bytes b = .ok y ∧ x < y) ∧
    (∀ position < index.count, ∃ entry, index.entry bytes position = .ok entry ∧
      index.offset bytes position = .ok entry.offset ∧ 12 ≤ entry.offset ∧ entry.offset < entry.stop ∧ entry.stop ≤ packEnd) ∧
    (∀ byte, 12 ≤ byte → byte < packEnd → ∃! position, position < index.count ∧ ∃ entry, index.entry bytes position = .ok entry ∧
      entry.offset ≤ byte ∧ byte < entry.stop) ∧
    (∀ offset position, index.atOffset bytes offset = .ok position ↔
      position < index.count ∧ index.offset bytes position = .ok offset) ∧
    (∀ id, ∃ found, index.find bytes id = .ok found ∧ ∀ position, found = some position ↔
      position < index.count ∧ index.identity bytes position = .ok id) ∧
    ∀ pre, ∃ start stop, index.prefixRange bytes pre = .ok (start, stop) ∧ ∀ position, start ≤ position ∧ position < stop ↔
      position < index.count ∧ ∃ id, index.identity bytes position = .ok id ∧ pre.matchesId id = true := by
  obtain ⟨offsets, order, h⟩ := valid_of_validate hparse hvalid
  rw [← packEnd_of_parse hparse]
  refine ⟨⟨order, h.built, h.perm, ?_⟩, fun position hpos => ?_, fun byte hlow hhigh => ?_,
    fun offset position => h.atOffset_iff,
    h.find_spec, h.prefixRange_spec⟩
  · refine h.increasing.imp_of_mem fun {a b} ha hb hab => ⟨_, _, h.offset a ?_, h.offset b ?_, hab⟩
    · exact mem_range.mp (h.perm.mem_iff.mp ha)
    · exact mem_range.mp (h.perm.mem_iff.mp hb)
  · obtain ⟨rank, hrank, rfl⟩ := h.exists_rank hpos
    obtain ⟨entry, hen, hoff, hstop⟩ := h.entry_eq hrank
    obtain ⟨hlt, hle⟩ := h.stopAt_bounds hrank
    exact ⟨entry, hen, by rw [h.offset _ hpos, hoff], by rw [hoff]; exact (h.bounds hpos).1,
      by rw [hoff, hstop]; exact hlt, by rw [hstop]; exact hle⟩
  · obtain ⟨rank, hrank, hle, hlt⟩ := h.exists_stopAt hlow hhigh
    obtain ⟨entry, hen, hoff, hstop⟩ := h.entry_eq hrank
    refine ⟨order.order[rank], ⟨h.lt_count hrank, entry, hen,
      by rw [hoff]; exact hle, by rw [hstop]; exact hlt⟩, ?_⟩
    rintro other ⟨hoth, entry', hen', hle', hlt'⟩
    obtain ⟨rank', hrank', rfl⟩ := h.exists_rank hoth
    obtain ⟨found, hgot, hoff', hstop'⟩ := h.entry_eq hrank'
    rw [hgot] at hen'
    cases hen'
    -- the entries of two ranks have no byte in common
    rcases lt_trichotomy rank' rank with hrank'' | heq | hrank''
    · exact absurd (h.stopAt_le hrank hrank'') (by omega)
    · simp only [heq]
    · exact absurd (h.stopAt_le hrank' hrank'') (by omega)

theorem validated_index_lookups_sample :
    ∃ bytes index, Index.parse .sha1 bytes (2 ^ 32) = .ok index ∧ index.validate bytes = .ok () ∧
      index.atOffset bytes 0x80000005 = .ok 0 ∧ index.atOffset bytes 12 = .ok 1 := by
  obtain ⟨bytes, hbs⟩ := @encodeIndex_total (Proofs.recordedDigests []) sampleEntries
    (ObjectId.null .sha1) sampleEntries_format
    (by decide) (by decide)
  have h := laid_of_encodeIndex sampleEntries_format hbs
  have hpar := @Laid.parse_eq _ _ _ _ h (2 ^ 32) (by decide)
  have hvd := h.validate_ok sampleEntries_sorted (by decide) sampleEntries_bounds (by decide)
  have hloo := (validated_index_lookups hpar hvd).2.2.2.1
  refine ⟨bytes, _, hpar, hvd, (hloo _ _).mpr ⟨by decide, ?_⟩, (hloo _ _).mpr ⟨by decide, ?_⟩⟩
  · exact h.offset_eq (show 0 < sampleEntries.length by decide) (by decide) (by decide)
  · exact h.offset_eq (show 1 < sampleEntries.length by decide) (by decide) (by decide)

end Lookups

end Girt.Pack
