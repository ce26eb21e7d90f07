import Girt.Bitmap.Index
import Girt.Proofs.Ewah
import Girt.Proofs.Recorded

/-!
# Accepted bitmap indexes answer every query

Every entry refers to an earlier one and every bitmap stays inside the objects, so every chain can be decoded.
-/

namespace Girt.Bitmap

open ByteLib EwahLib BisectLib List
open BitmapIndex (decodeFrom kindIndex parseWith)

variable {i objects cursor index : Nat} {types : List Bitmap}

section Bits

variable {words : List UInt64}

def bit (words : List UInt64) (i : Nat) : Bool := (words.getD (i / 64) 0).toNat.testBit (i % 64)

lemma bit_xorWords (words others : List UInt64) (i : Nat) (hi : i / 64 < words.length) :
    bit (xorWords words others) i = (bit words i ^^ bit others i) := by
  unfold bit
  rw [getD_eq_getElem?_getD, getElem?_xorWords, getD_eq_getElem?_getD (l := words), getElem?_eq_getElem hi,
    Option.map_some, Option.getD_some, Option.getD_some, UInt64.toNat_xor, Nat.testBit_xor]

lemma bit_of_length_le (hi : words.length ≤ i / 64) : bit words i = false := by
  rw [bit, getD_eq_default _ _ hi]
  simp

lemma bit_zeros (size i : Nat) : bit (List.replicate size 0) i = false := by
  unfold bit
  by_cases hi : i / 64 < size
  · simp [getD_eq_getElem?_getD, hi]
  · simp [getD_eq_getElem?_getD, hi]

/-- Words that stay inside some objects. -/
structure Inside (words : List UInt64) (objects : Nat) : Prop where
  length : words.length ≤ wordCount objects
  last : words.length = wordCount objects → ∀ last ∈ words.getLast?, last.toNat < 2 ^ tailBits objects

lemma Inside.bit_eq_false (h : Inside words objects) (hi : objects ≤ i) : bit words i = false := by
  by_cases hsh : words.length ≤ i / 64
  · exact bit_of_length_le hsh
  have hlen := h.length
  have hnum : wordCount objects = i / 64 + 1 := by
    unfold wordCount at hlen ⊢
    omega
  have hfull : words.length = wordCount objects := by omega
  have htail : tailBits objects ≤ i % 64 := by
    unfold wordCount at hnum
    unfold tailBits
    split_ifs <;> omega
  have hlt : words.length - 1 < words.length := by omega
  have hlast : words.getD (i / 64) 0 = words[words.length - 1] := by
    rw [show i / 64 = words.length - 1 by omega, getD_eq_getElem _ _ hlt]
  have hsome : words[words.length - 1] ∈ words.getLast? := by
    rw [getLast?_eq_getElem?, getElem?_eq_getElem hlt]
    rfl
  rw [bit, hlast]
  exact Nat.testBit_lt_two_pow ((h.last hfull _ hsome).trans_le (Nat.pow_le_pow_right (by decide) htail))

end Bits

section Chain

variable {out : List UInt64} {bud place : Nat} {ents : List Entry}

/-- A compressed bitmap whose words are there and stay inside some objects. -/
structure Held (bytes : Bytes) (objects : Nat) (ewah : Ewah) : Prop where
  room : ewah.start + ewah.words * 8 ≤ bytes.length
  words : ∃ all, expand (wordsAt bytes ewah.start ewah.words) = some all ∧ Inside all objects

lemma held_of_parse {bs : Bytes} {stop objects next : Nat} {ewah : Ewah}
    (h : Ewah.parse bs cursor stop objects = .ok (ewah, next)) : Held bs objects ewah := by
  obtain ⟨hroom, -, -, all, hall, hlen, hlast⟩ := parse_spec h
  exact ⟨hroom, all, hall, hlen, hlast⟩

def storedWords (bytes : Bytes) (ewah : Ewah) : List UInt64 :=
  (expand (wordsAt bytes ewah.start ewah.words)).getD []

variable {bs : Bytes} {objects : Nat} {ewah : Ewah}

lemma Held.inside (h : Held bs objects ewah) : Inside (storedWords bs ewah) objects := by
  obtain ⟨all, hall, hins⟩ := h.words
  rwa [storedWords, hall]

lemma Held.xorInto_eq (h : Held bs objects ewah)
    (hout : wordCount objects ≤ out.length) (hbud : (storedWords bs ewah).length ≤ bud) :
    ewah.xorInto bs out bud =
      .ok (xorWords out (storedWords bs ewah), bud - (storedWords bs ewah).length) := by
  have hlen := h.inside.length
  obtain ⟨all, hall, -⟩ := h.words
  have hsto : storedWords bs ewah = all := by rw [storedWords, hall, Option.getD_some]
  rw [hsto] at hbud hlen ⊢
  exact Bitmap.xorInto_eq h.room hall (hlen.trans hout) hbud

/-- The entries whose bitmaps an entry is the sum of. -/
def chain (entries : List Entry) (place : Nat) : List Entry :=
  match entries[place]? with
  | none => []
  | some entry => entry :: if _h : 0 < entry.xor ∧ entry.xor ≤ place then chain entries (place - entry.xor) else []
termination_by place

def sumStored (bytes : Bytes) (output : List UInt64) (entries : List Entry) : List UInt64 :=
  entries.foldl (fun output entry => xorWords output (storedWords bytes entry.bitmap)) output

lemma length_sumStored (out : List UInt64) (ents : List Entry) :
    (sumStored bs out ents).length = out.length := by
  induction ents generalizing out with
  | nil => rfl
  | cons ent ents ih =>
    exact (ih _).trans (length_xorWords _ _)

lemma bit_sumStored (hi : i / 64 < out.length) :
    bit (sumStored bs out ents) i =
      ents.foldl (fun val ent => val ^^ bit (storedWords bs ent.bitmap) i) (bit out i) := by
  induction ents generalizing out with
  | nil => rfl
  | cons ent ents ih =>
    rw [sumStored, foldl_cons, foldl_cons, ← bit_xorWords _ _ _ hi]
    exact ih ((length_xorWords _ _).symm ▸ hi)

def chainWords (bytes : Bytes) (entries : List Entry) : Nat :=
  (entries.map fun entry => (storedWords bytes entry.bitmap).length).sum

def EntriesHeld (index : BitmapIndex) : Prop :=
  ∀ (place : Nat) (entry : Entry), index.entries[place]? = some entry → entry.xor ≤ place ∧ Held index.bytes index.objects entry.bitmap

lemma mem_entries_of_mem_chain {entries : List Entry} {entry : Entry}
    (h : entry ∈ chain entries place) : entry ∈ entries := by
  induction place using Nat.strong_induction_on with
  | _ place ih =>
    rw [chain] at h
    cases hen : entries[place]? with
    | none => simp [hen] at h
    | some first =>
      simp only [hen, mem_cons] at h
      rcases h with rfl | h
      · exact mem_of_getElem? hen
      · split_ifs at h with hxor
        · exact ih _ (by omega) h
        · cases h

lemma chain_eq {ent : Entry} (hen : ents[place]? = some ent)
    (hle : ent.xor ≤ place) :
    chain ents place = ent :: if ent.xor = 0 then [] else chain ents (place - ent.xor) := by
  rw [chain, hen]
  by_cases hxor : ent.xor = 0
  · simp [hxor]
  · simp [hxor, hle, Nat.pos_of_ne_zero hxor]

lemma decodeFrom_eq {index : BitmapIndex} (hheld : EntriesHeld index)
    (hpla : place < index.entries.length) (hout : wordCount index.objects ≤ out.length)
    (hbud : chainWords index.bytes (chain index.entries place) ≤ bud) :
    index.decodeFrom place out bud =
      .ok (sumStored index.bytes out (chain index.entries place)) := by
  induction place using Nat.strong_induction_on generalizing out bud with
  | _ place ih =>
    have hen := getElem?_eq_getElem hpla
    obtain ⟨hle, hbit⟩ := hheld _ _ hen
    have hch := chain_eq hen hle
    rw [hch, chainWords, map_cons, sum_cons] at hbud
    have hxor := @Held.xorInto_eq out bud _ _ _ hbit hout (by omega)
    rw [decodeFrom, hch]
    refine bind_ok.mpr ⟨_, by rw [element, hen], bind_ok.mpr ⟨_, hxor, ?_⟩⟩
    split_ifs at hbud ⊢ with hzero
    · rfl
    · omega
    · exact ih _ (by omega) (by omega) (by rwa [length_xorWords]) (by rw [chainWords]; omega)

end Chain

section Parse

variable {bs : Bytes} {entriesEnd objects : Nat}
variable {next count bud : Nat}

lemma parseEntry_spec {ent : Entry}
    (h : parseEntry bs entriesEnd objects index cursor = .ok (ent, next)) :
    ent.xor ≤ index ∧ Held bs objects ent.bitmap := by
  simp only [parseEntry, bind_ok, reject_ok] at h
  obtain ⟨pos, -, xor, -, flags, -, -, hxor, -, -, bitmap, hbit, h⟩ := h
  cases h
  exact ⟨by simp only; omega, held_of_parse hbit⟩

lemma parseEntries_spec {ents : List Entry}
    (h : parseEntries bs entriesEnd objects count index cursor = .ok (ents, next)) :
    ∀ (place : Nat) (ent : Entry), ents[place]? = some ent →
      ent.xor ≤ index + place ∧ Held bs objects ent.bitmap := by
  induction count generalizing index cursor ents next with
  | zero =>
    cases h
    simp
  | succ count ih =>
    simp only [parseEntries, bind_ok] at h
    obtain ⟨first, hfirst, rest, hrest, h⟩ := h
    cases h
    intro place ent hen
    cases place with
    | zero =>
      cases hen
      exact parseEntry_spec hfirst
    | succ place =>
      obtain ⟨hxor, hheld⟩ := ih hrest place ent hen
      exact ⟨by omega, hheld⟩

lemma zeroWords_eq_ok {zeros : List UInt64 × Nat} :
    zeroWords objects bud = .ok zeros ↔ wordCount objects ≤ bud ∧
      zeros = (List.replicate (wordCount objects) 0, bud - wordCount objects) := by
  simp only [zeroWords, charge, bind_ok]
  split_ifs with hbud
  · simp [hbud, pure, Except.pure, eq_comm]
  · simp [hbud]

lemma parseTypes_spec (h : parseTypes bs entriesEnd objects count cursor bud = .ok (types, next)) :
    types.length = count ∧ ∀ bitmap ∈ types, bitmap.objects = objects := by
  induction count generalizing cursor bud types next with
  | zero =>
    cases h
    simp
  | succ count ih =>
    simp only [parseTypes, bind_ok] at h
    obtain ⟨encoded, -, zeros, -, out, -, rest, hrest, h⟩ := h
    cases h
    obtain ⟨hlen, hobs⟩ := ih hrest
    refine ⟨by rw [length_cons, hlen], fun bitmap hbit => ?_⟩
    rcases mem_cons.mp hbit with rfl | hbit
    · rfl
    · exact hobs bitmap hbit

end Parse

section Types

lemma element_eq_ok {α : Type} {list : List α} {value : α} :
    element list index = .ok value ↔ list[index]? = some value := by
  unfold element
  cases list[index]? <;> simp

lemma foldlM_joinType {union result : UInt64} (h : types.foldlM (joinType index) union = .ok result) :
    (∀ bitmap ∈ types, index < bitmap.words.length) ∧ ∀ b,
      (result.toNat.testBit b ↔ union.toNat.testBit b ∨
        ∃ bitmap ∈ types, (bitmap.words.getD index 0).toNat.testBit b) ∧
      (union.toNat.testBit b → ∀ bitmap ∈ types, (bitmap.words.getD index 0).toNat.testBit b = false) ∧
      types.Pairwise fun s t => (s.words.getD index 0).toNat.testBit b →
        (t.words.getD index 0).toNat.testBit b = false := by
  induction types generalizing union with
  | nil =>
    cases h
    simp
  | cons first types ih =>
    rw [foldlM_cons, bind_ok] at h
    obtain ⟨joined, hjoi, h⟩ := h
    simp only [joinType, bind_ok, element_eq_ok, reject_ok, not_not] at hjoi
    obtain ⟨word, hword, -, hdis, hjoi⟩ := hjoi
    cases hjoi
    obtain ⟨hroom, hbits⟩ := ih h
    obtain ⟨hlt, -⟩ := List.getElem?_eq_some_iff.mp hword
    have hget : first.words.getD index 0 = word := by rw [getD_eq_getElem?_getD, hword, Option.getD_some]
    refine ⟨forall_mem_cons.mpr ⟨hlt, hroom⟩, fun b => ?_⟩
    obtain ⟨hres, haf, hpair⟩ := hbits b
    have hor : (union ||| word).toNat.testBit b = (union.toNat.testBit b || word.toNat.testBit b) := by
      rw [UInt64.toNat_or, Nat.testBit_or]
    have hand : (union.toNat.testBit b && word.toNat.testBit b) = false := by
      rw [← Nat.testBit_and, ← UInt64.toNat_and, hdis]
      simp
    rw [hor, Bool.or_eq_true] at hres haf
    refine ⟨?_, fun huni => ?_, ?_⟩
    · rw [hres, exists_mem_cons_iff, hget, or_assoc]
    · refine forall_mem_cons.mpr ⟨?_, haf (.inl huni)⟩
      rw [hget]
      simpa [huni] using hand
    · refine pairwise_cons.mpr ⟨fun bitmap hbit hfirst => ?_, hpair⟩
      exact haf (.inr (hget ▸ hfirst)) bitmap hbit

lemma and_bit_ne_zero {word : UInt64} {k : Nat} (hk : k < 64) :
    word &&& (1 <<< UInt64.ofNat k) ≠ 0 ↔ word.toNat.testBit k := by
  have hshi : ((1 : UInt64) <<< UInt64.ofNat k).toNat = 2 ^ k := by
    rw [UInt64.toNat_shiftLeft, UInt64.toNat_ofNat', Nat.shiftLeft_eq]
    have hpow : 2 ^ k < 2 ^ 64 := Nat.pow_lt_pow_right (by decide) hk
    rw [Nat.mod_eq_of_lt (a := k) (by omega), Nat.mod_eq_of_lt hk]
    simpa using hpow
  rw [ne_eq, ← UInt64.toNat_inj, UInt64.toNat_and, hshi, Nat.and_two_pow]
  cases word.toNat.testBit k <;> simp

lemma contains_iff {bitmap : Bitmap} {i : Nat} :
    bitmap.contains i ↔ i < bitmap.objects ∧ bit bitmap.words i := by
  unfold Bitmap.contains bit
  rw [Bool.and_eq_true, decide_eq_true_iff, getD_eq_getElem?_getD]
  refine and_congr_right fun _ => ?_
  cases bitmap.words[i / 64]? with
  | none => simp
  | some word => simpa using and_bit_ne_zero (Nat.mod_lt i (by decide))

lemma testBit_expectedWord (hi : i < objects) :
    (expectedWord objects (i / 64)).toNat.testBit (i % 64) := by
  unfold expectedWord
  split_ifs with hlast
  · rw [tailMask_toNat, Nat.testBit_two_pow_sub_one, decide_eq_true_iff]
    unfold wordCount at hlast
    unfold tailBits
    split_ifs <;> omega
  · have hones : ones.toNat = 2 ^ 64 - 1 := rfl
    rw [hones, Nat.testBit_two_pow_sub_one, decide_eq_true_iff]
    omega

lemma validateTypes_spec (h : validateTypes types objects = .ok ()) (hi : i < objects) :
    (∃ bitmap ∈ types, bit bitmap.words i) ∧
      types.Pairwise fun s t => bit s.words i → bit t.words i = false := by
  have hword := forM_eq_ok.mp h (i / 64) (mem_range.mpr (by unfold wordCount; omega))
  simp only [validateTypeWord, bind_ok, reject_ok, not_not] at hword
  obtain ⟨union, huni, rfl⟩ := hword
  obtain ⟨hres, -, hpair⟩ := (foldlM_joinType huni).2 (i % 64)
  rw [testBit_expectedWord hi] at hres
  exact ⟨by simpa [bit] using hres, hpair⟩

end Types

section Sorted

lemma sortEntries_perm (ents : List Entry) : (sortEntries ents).Perm (List.range ents.length) :=
  perm_insertionSort _ _

lemma sortEntries_sorted (ents : List Entry) :
    (sortEntries ents).Pairwise fun a b => positionAt ents a ≤ positionAt ents b := by
  exact pairwise_insertionSort _ _

end Sorted

section Accepted

variable {bs : Bytes} {lim : Limits} {place : Nat} {ent : Entry}

structure Accepted (index : BitmapIndex) : Prop where
  objects : index.objects ≤ 2 ^ 32 - 1
  held : EntriesHeld index
  count : index.types.length = 4
  typeObjects : ∀ bitmap ∈ index.types, bitmap.objects = index.objects
  types : validateTypes index.types index.objects = .ok ()
  perm : index.sorted.Perm (List.range index.entries.length)
  sorted : index.sorted.Pairwise fun a b => positionAt index.entries a < positionAt index.entries b

lemma accepted_of_parseWith {digs : Digests} {exp : ObjectId}
    {index : BitmapIndex} (h : parseWith digs bs exp objects lim = .ok index) :
    Accepted index ∧ index.bytes = bs ∧ index.objects = objects := by
  simp only [parseWith, bounds, bind_ok, reject_ok] at h
  obtain ⟨-, ⟨-, -, hobs⟩, -, -, ver, -, -, -, flags, -, -, -, -, -, -, -, -, -, count, -, -, -, -,
    -, -, -, -, -, types,
    htyp, _, hvd, ents, hens, -, -, -, hdis, -, -, h⟩ := h
  cases h
  obtain ⟨hnum, hobs'⟩ := parseTypes_spec htyp
  refine ⟨⟨by simp only; omega, fun place ent hen => ?_, hnum, hobs', hvd, sortEntries_perm _,
    pairwise_lt_of_neighbours (sortEntries_sorted _) hdis⟩, rfl, rfl⟩
  obtain ⟨hxor, hheld⟩ := parseEntries_spec hens place ent hen
  exact ⟨by omega, hheld⟩

variable {index : BitmapIndex}

lemma Accepted.typeBitmap_ok (h : Accepted index) (kind : ObjectKind) :
    ∃ bitmap, index.typeBitmap kind = .ok bitmap ∧ index.types[kindIndex kind]? = some bitmap := by
  have hlt : kindIndex kind < index.types.length := by
    rw [h.count]
    cases kind <;> decide
  have hsome := getElem?_eq_getElem hlt
  exact ⟨_, element_eq_ok.mpr hsome, hsome⟩

lemma kindIndex_injective : Function.Injective kindIndex := by
  intro a b h
  cases a <;> cases b <;> first | rfl | cases h

lemma exists_kindIndex {n : Nat} (hn : n < 4) : ∃ kind, kindIndex kind = n := by
  have hcas : n = 0 ∨ n = 1 ∨ n = 2 ∨ n = 3 := by omega
  rcases hcas with rfl | rfl | rfl | rfl
  · exact ⟨.commit, rfl⟩
  · exact ⟨.tree, rfl⟩
  · exact ⟨.blob, rfl⟩
  · exact ⟨.tag, rfl⟩

lemma Accepted.existsUnique_kind (h : Accepted index) (hi : i < index.objects) :
    ∃! kind, ∃ bitmap, index.typeBitmap kind = .ok bitmap ∧ bitmap.contains i := by
  obtain ⟨⟨bitmap, hmem, hbit⟩, hpair⟩ := validateTypes_spec h.types hi
  obtain ⟨n, hn⟩ := mem_iff_getElem?.mp hmem
  obtain ⟨hlt, -⟩ := List.getElem?_eq_some_iff.mp hn
  obtain ⟨kind, rfl⟩ := exists_kindIndex (h.count ▸ hlt)
  refine ⟨kind, ⟨bitmap, element_eq_ok.mpr hn,
    contains_iff.mpr ⟨(h.typeObjects _ hmem).symm ▸ hi, hbit⟩⟩, ?_⟩
  rintro other ⟨bitmap', hoth, hcon⟩
  have hn' := element_eq_ok.mp hoth
  have hbit' := (contains_iff.mp hcon).2
  obtain ⟨hlt', hget'⟩ := List.getElem?_eq_some_iff.mp hn'
  obtain ⟨_, hget⟩ := List.getElem?_eq_some_iff.mp hn
  -- two kinds of one object would be two types that overlap
  have hdis := pairwise_iff_getElem.mp hpair
  refine kindIndex_injective ?_
  rcases lt_trichotomy (kindIndex other) (kindIndex kind) with hlt'' | heq | hlt''
  · have hfal := hdis _ _ hlt' hlt hlt'' (by rw [hget']; exact hbit')
    rw [hget, hbit] at hfal
    cases hfal
  · exact heq
  · have hfal := hdis _ _ hlt hlt' hlt'' (by rw [hget]; exact hbit)
    rw [hget', hbit'] at hfal
    cases hfal

lemma Accepted.comparePosition_eq (h : Accepted index) (pos : Nat) {rank : Nat}
    (hrank : rank < index.sorted.length) :
    index.comparePosition pos rank =
      .ok (keyOrder (positionAt index.entries index.sorted[rank]) pos) := by
  have hpla : index.sorted[rank] < index.entries.length :=
    mem_range.mp (h.perm.mem_iff.mp (getElem_mem hrank))
  have hen := getElem?_eq_getElem hpla
  refine bind_ok.mpr ⟨_, element_eq_ok.mpr (getElem?_eq_getElem hrank),
    bind_ok.mpr ⟨_, element_eq_ok.mpr hen, ?_⟩⟩
  rw [positionAt, hen]
  rfl

lemma Accepted.search_eq (h : Accepted index) (hen : index.entries[place]? = some ent) :
    ∃ rank, search (index.comparePosition ent.position) 0 index.sorted.length = .ok (some rank) ∧
      index.sorted[rank]? = some place := by
  obtain ⟨hpla, -⟩ := List.getElem?_eq_some_iff.mp hen
  obtain ⟨rank, hrank⟩ := List.mem_iff_getElem?.mp (h.perm.mem_iff.mpr (List.mem_range.mpr hpla))
  obtain ⟨hlt, hget⟩ := List.getElem?_eq_some_iff.mp hrank
  have hpos : positionAt index.entries place = ent.position := by rw [positionAt, hen]; rfl
  have hcompare : ∀ i, 0 ≤ i → i < index.sorted.length → index.comparePosition ent.position i =
      .ok (keyOrder (positionAt index.entries (index.sorted.getD i 0)) ent.position) := by
    intro i _ hi
    rw [h.comparePosition_eq _ hi, getD_eq_getElem _ _ hi]
  obtain ⟨fnd, hgot, hiff⟩ := search_key hcompare (fun i j _ hij hj => by
    rw [getD_eq_getElem _ _ (hij.trans hj), getD_eq_getElem _ _ hj]
    exact pairwise_iff_getElem.mp h.sorted i j (hij.trans hj) hj hij)
  refine ⟨rank, ?_, hrank⟩
  rw [hgot, (hiff rank).mpr ⟨Nat.zero_le _, hlt, by rw [getD_eq_getElem _ _ hlt, hget, hpos]⟩]

def sumBits (bytes : Bytes) (entries : List Entry) (i : Nat) : Bool :=
  entries.foldl (fun value entry => value ^^ bit (storedWords bytes entry.bitmap) i) false

lemma sumBits_eq_false {ents : List Entry}
    (h : ∀ ent ∈ ents, bit (storedWords bs ent.bitmap) i = false) : sumBits bs ents i = false := by
  unfold sumBits
  induction ents with
  | nil => rfl
  | cons ent ents ih =>
    rw [foldl_cons, h ent mem_cons_self]
    exact ih fun other hoth => h other (.tail _ hoth)

lemma Accepted.sumBits_outside (h : Accepted index) (place : Nat) (hi : index.objects ≤ i) :
    sumBits index.bytes (chain index.entries place) i = false := by
  refine sumBits_eq_false fun entry hen => ?_
  obtain ⟨n, hn⟩ := mem_iff_getElem?.mp (mem_entries_of_mem_chain hen)
  exact (h.held n entry hn).2.inside.bit_eq_false hi

lemma Accepted.reachableWith_eq (h : Accepted index)
    (hen : index.entries[place]? = some ent) (hbs : index.bytes.length ≤ lim.maxBytes)
    (hobs : index.objects ≤ lim.maxObjects) (hens : index.entries.length ≤ lim.maxEntries)
    (hwords : wordCount index.objects + chainWords index.bytes (chain index.entries place) ≤ lim.maxDecodedWords) :
    index.reachableWith ent.position lim =
      .ok (some ⟨sumStored index.bytes (List.replicate (wordCount index.objects) 0) (chain index.entries place),
        index.objects⟩) := by
  obtain ⟨hpla, -⟩ := List.getElem?_eq_some_iff.mp hen
  obtain ⟨rank, hsea, hrank⟩ := h.search_eq hen
  have hbound : bounds index.bytes index.objects lim = .ok () := by
    have hmax := h.objects
    exact reject_bind.mpr ⟨(by omega), reject_ok.mpr (by omega)⟩
  have hzer := zeroWords_eq_ok.mpr ⟨(Nat.le_add_right _ _).trans hwords, rfl⟩
  have hbud : chainWords index.bytes (chain index.entries place) ≤
      lim.maxDecodedWords - wordCount index.objects := by
    omega
  have hdec := @decodeFrom_eq (replicate (wordCount index.objects) 0) _ _ _ h.held hpla (by simp) hbud
  exact bind_ok.mpr ⟨(), hbound, reject_bind.mpr ⟨(not_lt.mpr hens),
    bind_ok.mpr ⟨_, hsea, bind_ok.mpr ⟨_, element_eq_ok.mpr hrank, bind_ok.mpr ⟨_, hzer,
      bind_ok.mpr ⟨_, hdec, rfl⟩⟩⟩⟩⟩⟩

end Accepted

/-- An accepted index answers the query for every commit it has an entry for, as long as the limits allow for
its size: the bits of the answer are the sum of the stored bits along the chain of the entry, and none is set
outside the objects. Every object has exactly one kind. -/
theorem accepted_index_answers {digests : Digests} {bytes : Bytes} {expected : ObjectId}
    {objects : Nat} {limits : Limits}
    {index : BitmapIndex} (h : BitmapIndex.parseWith digests bytes expected objects limits = .ok index) :
    (∀ (place : Nat) (entry : Entry), index.entries[place]? = some entry → ∀ limits' : Limits,
      bytes.length ≤ limits'.maxBytes → objects ≤ limits'.maxObjects → index.entries.length ≤ limits'.maxEntries →
      wordCount objects + chainWords bytes (chain index.entries place) ≤ limits'.maxDecodedWords →
      ∃ words, index.reachableWith entry.position limits' = .ok (some ⟨words, objects⟩) ∧
        words.length = wordCount objects ∧
        (∀ i, bit words i = sumBits bytes (chain index.entries place) i) ∧ ∀ i, objects ≤ i → bit words i = false) ∧
    (∀ kind, ∃ bitmap, index.typeBitmap kind = .ok bitmap ∧ bitmap.objects = objects) ∧
    ∀ i < objects, ∃! kind, ∃ bitmap, index.typeBitmap kind = .ok bitmap ∧ bitmap.contains i = true := by
  obtain ⟨hacc, rfl, rfl⟩ := accepted_of_parseWith h
  refine ⟨fun place entry hen limits' hbs hobs hens hwords => ?_, fun kind => ?_,
    fun i hi => hacc.existsUnique_kind hi⟩
  · have hbits : ∀ i, bit (sumStored index.bytes (replicate (wordCount index.objects) 0) (chain index.entries place)) i =
        sumBits index.bytes (chain index.entries place) i := by
      intro i
      by_cases hi : i / 64 < wordCount index.objects
      · rw [bit_sumStored (by simpa using hi), bit_zeros]
        rfl
      · rw [bit_of_length_le (by simpa [length_sumStored] using hi), hacc.sumBits_outside place]
        unfold wordCount at hi
        omega
    refine ⟨_, hacc.reachableWith_eq hen hbs hobs hens hwords, by simp [length_sumStored], hbits, ?_⟩
    intro i hi
    rw [hbits, hacc.sumBits_outside place hi]
  · obtain ⟨bitmap, hbit, hget⟩ := hacc.typeBitmap_ok kind
    exact ⟨bitmap, hbit, hacc.typeObjects bitmap (mem_of_getElem? hget)⟩

def sampleAnchor : ObjectId :=
  ⟨.sha1, [106, 205, 98, 18, 128, 147, 46, 111, 63, 47, 135, 131, 224, 105, 146, 89, 11, 108, 122, 83], rfl⟩

/-- Two commits, the second of which is stored as its sum with the first. -/
def sampleContent : Bytes :=
  ascii "BITM" ++ beBytes 2 1 ++ beBytes 2 1 ++ beBytes 4 2 ++ sampleAnchor.bytes ++
    framed 2 [marker false 0 1, 3] ++ framed 0 [0] ++ framed 0 [0] ++ framed 0 [0] ++
    (beBytes 4 0 ++ [0, 0] ++ framed 1 [marker false 0 1, 1]) ++
    (beBytes 4 1 ++ [1, 0] ++ framed 2 [marker false 0 1, 2])

def sampleChecksum : Bytes := [116, 102, 176, 190, 145, 154, 157, 124, 3, 18, 84, 155, 202, 249, 255, 4, 164, 125, 103, 190]

def sampleLimits : Limits := ⟨1000, 2, 2, 8⟩

/-- The second commit reaches both. -/
theorem accepted_index_answers_sample :
    ∃ index, BitmapIndex.parseWith (Proofs.recordedDigests [(sampleContent, sampleChecksum)])
        (sampleContent ++ sampleChecksum) sampleAnchor 2 sampleLimits = .ok index ∧
      ∃ words, index.reachableWith 1 sampleLimits = .ok (some ⟨words, 2⟩) ∧ bit words 0 = true ∧ bit words 1 = true ∧
        ∀ i, 2 ≤ i → bit words i = false := by
  have hrun : ((BitmapIndex.parseWith (Proofs.recordedDigests [(sampleContent, sampleChecksum)])
      (sampleContent ++ sampleChecksum) sampleAnchor 2 sampleLimits).toOption.map (·.entries)) =
      some [⟨0, 0, 120, 134, 2⟩, ⟨1, 1, 154, 168, 2⟩] := by decide +kernel
  cases hpar : BitmapIndex.parseWith (Proofs.recordedDigests [(sampleContent, sampleChecksum)])
      (sampleContent ++ sampleChecksum) sampleAnchor 2 sampleLimits with
  | error e =>
    rw [hpar] at hrun
    cases hrun
  | ok index =>
    rw [hpar] at hrun
    have hens : index.entries = [⟨0, 0, 120, 134, 2⟩, ⟨1, 1, 154, 168, 2⟩] := Option.some.inj hrun
    obtain ⟨words, hwords, -, hbits, hout⟩ := (accepted_index_answers hpar).1 1 ⟨1, 1, 154, 168, 2⟩
      (by rw [hens]; rfl) sampleLimits (by decide +kernel) (by decide) (by rw [hens]; decide)
      (by rw [hens]; decide +kernel)
    rw [hens] at hbits
    exact ⟨index, rfl, words, hwords, by rw [hbits]; decide +kernel, by rw [hbits]; decide +kernel, hout⟩

end Girt.Bitmap
