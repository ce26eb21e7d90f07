import Girt.Proofs.ObjectPrefix
import Girt.Proofs.PackOrder

/-!
# Validated pack indexes

Lookups by identity, by prefix and by offset find exactly what is there.
-/

namespace Girt.Pack

open ByteLib BisectLib RadixLib List Nat Index Option ObjectIdPrefix
open List (range)

variable {i packEnd : Nat} {fmt : ObjectFormat}

section Counting

lemma lt_below_iff {digit : Nat → Nat} {n : Nat} (hmono : ∀ i j, i ≤ j → j < n → digit i ≤ digit j)
    (d : Nat) {i : Nat} (hi : i < n) : i < below digit (range n) d ↔ digit i < d := by
  have hle : ∀ m, below digit (range m) d ≤ m := fun m => (length_filter_le _ _).trans_eq length_range
  have hsucc : ∀ m, below digit (range (m + 1)) d = below digit (range m) d + if digit m <
      d then 1 else 0 := by
    intro m
    rw [below, range_succ, filter_append, length_append]
    by_cases hm : digit m < d <;> simp [below, hm]
  induction n with
  | zero => omega
  | succ n ih =>
    rw [hsucc]
    by_cases hn : digit n < d
    · -- every digit before is smaller still, so all positions count
      have hfull : below digit (range n) d = n := by
        rw [below, filter_eq_self.mpr, length_range]
        intro j hj
        exact decide_eq_true ((hmono j n (mem_range.mp hj).le (by omega)).trans_lt hn)
      rw [if_pos hn, hfull]
      exact ⟨fun _ => (hmono i n (by omega) (by omega)).trans_lt hn, fun _ => hi⟩
    · rw [if_neg hn, Nat.add_zero]
      rcases Nat.lt_succ_iff_lt_or_eq.mp hi with hi | rfl
      · exact ih (fun i j hij hj => hmono i j hij (by omega)) hi
      · exact ⟨fun h => absurd (hle i) (by omega), fun h => absurd h hn⟩

end Counting

namespace Index

variable {index : Index} {bytes : Bytes}

section Names

variable {names names' : Names} {poss : List Nat}

def name (index : Index) (bytes : Bytes) (position : Nat) : Bytes :=
  (bytes.drop (index.nameStart position)).take index.format.digestLen

def initial (index : Index) (bytes : Bytes) (position : Nat) : Nat := firstByte (index.name bytes position)

/-- How many names begin with a smaller byte. -/
def before (index : Index) (bytes : Bytes) (first : Nat) : Nat :=
  below (index.initial bytes) (List.range index.count) first

lemma slice_eq_some {start width : Nat} {part : Bytes} :
    slice bytes start width = some part ↔
      start + width ≤ bytes.length ∧ part = (bytes.drop start).take width := by
  unfold slice
  split_ifs with h
  · simp [h, eq_comm]
  · simp [h]

lemma nameStart_eq (index : Index) (position : Nat) :
    index.nameStart 0 + position * (if index.legacy then index.format.digestLen + 4 else index.format.digestLen) =
      index.nameStart position := by
  unfold nameStart
  split_ifs <;> ring

lemma checkName_eq_ok {position : Nat} :
    index.checkName bytes names position = .ok names' ↔
      index.nameStart position + index.format.digestLen ≤ bytes.length ∧
        (∀ previous ∈ names.previous, previous < index.name bytes position) ∧
        names' = ⟨some (index.name bytes position), names.fanout.modify (index.initial bytes position) (· + 1)⟩ := by
  unfold checkName
  simp only [nameStart_eq]
  cases hsli : slice bytes (index.nameStart position) index.format.digestLen with
  | none =>
    have hnone : ¬index.nameStart position + index.format.digestLen ≤ bytes.length := by
      intro hle
      rw [slice, if_pos hle] at hsli
      cases hsli
    simp [hnone]
  | some part =>
    obtain ⟨hle, rfl⟩ := slice_eq_some.mp hsli
    simp only [bind_ok, reject_ok, Option.any_eq_true, not_exists, not_and, decide_eq_true_eq,
      not_le, hle, true_and]
    constructor
    · rintro ⟨-, hsort, h⟩
      cases h
      exact ⟨fun previous hprev => hsort previous hprev, rfl⟩
    · rintro ⟨hsort, rfl⟩
      exact ⟨(), fun previous hprev => hsort previous hprev, rfl⟩

/-- The identities at some positions are accepted one after the other if they increase. -/
lemma checkNames_eq_ok :
    poss.foldlM (index.checkName bytes) names = .ok names' ↔
      (∀ pos ∈ poss, index.nameStart pos + index.format.digestLen ≤ bytes.length) ∧
        (∀ prev ∈ names.previous, ∀ pos ∈ poss, prev < index.name bytes pos) ∧
        (poss.Pairwise fun i j => index.name bytes i < index.name bytes j) ∧
        names' = ⟨(poss.getLast?.map (index.name bytes)).or names.previous,
          poss.foldl (fun fanout pos => fanout.modify (index.initial bytes pos) (· + 1)) names.fanout⟩ := by
  induction poss generalizing names with
  | nil =>
    constructor
    · intro h
      cases h
      simp
    · rintro ⟨-, -, -, rfl⟩
      rfl
  | cons pos poss ih =>
    rw [foldlM_cons, bind_ok]
    have hlast : ∀ pre : Option Bytes, ((pos :: poss).getLast?.map (index.name bytes)).or pre =
        (poss.getLast?.map (index.name bytes)).or (some (index.name bytes pos)) := by
      intro pre
      rw [getLast?_cons]
      cases poss.getLast? <;> rfl
    constructor
    · rintro ⟨next, hnext, h⟩
      obtain ⟨hfits, hpre, rfl⟩ := checkName_eq_ok.mp hnext
      obtain ⟨hfits', hhead, hpair, rfl⟩ := ih.mp h
      have hhead' := hhead _ rfl
      refine ⟨forall_mem_cons.mpr ⟨hfits, hfits'⟩, fun prev hprev => ?_,
        pairwise_cons.mpr ⟨hhead', hpair⟩, ?_⟩
      · exact forall_mem_cons.mpr ⟨hpre prev hprev,
          fun other hoth => (hpre prev hprev).trans (hhead' other hoth)⟩
      · rw [hlast, foldl_cons]
    · rintro ⟨hfits, hpre, hpair, rfl⟩
      obtain ⟨hfits, hfits'⟩ := forall_mem_cons.mp hfits
      obtain ⟨hhead, hpair⟩ := pairwise_cons.mp hpair
      refine ⟨_, checkName_eq_ok.mpr ⟨hfits, fun prev hprev => hpre prev hprev pos (.head _), rfl⟩,
        ih.mpr ⟨hfits', ?_, hpair, ?_⟩⟩
      · rintro prev ⟨⟩ other hoth
        exact hhead other hoth
      · rw [hlast, foldl_cons]

lemma checkCumulatives_iff {first n : Nat} :
    (∃ total, (((List.range' first n).map fun d => (bucket (index.initial bytes) poss d).length).zipIdx first).foldlM
        (index.checkCumulative bytes) (below (index.initial bytes) poss first) = .ok total) ↔
      ∀ i, first ≤ i → i < first + n → word bytes (index.fanoutStart + i * 4) = .ok (below (index.initial bytes) poss (i + 1)) := by
  induction n generalizing first with
  | zero => exact ⟨fun _ i hi hi' => absurd hi' (by omega), fun _ => ⟨_, rfl⟩⟩
  | succ n ih =>
    have hstep : ∀ next, index.checkCumulative bytes (below (index.initial bytes) poss first)
        ((bucket (index.initial bytes) poss first).length, first) = .ok next ↔
        word bytes (index.fanoutStart + first * 4) = .ok (below (index.initial bytes) poss (first + 1)) ∧
          next = below (index.initial bytes) poss (first + 1) := by
      intro next
      simp only [checkCumulative, bind_ok, reject_ok, not_not, ← below_succ]
      constructor
      · rintro ⟨fnd, hgot, -, rfl, h⟩
        cases h
        exact ⟨hgot, rfl⟩
      · rintro ⟨hword, rfl⟩
        exact ⟨_, hword, (), rfl, rfl⟩
    simp only [range'_succ, map_cons, zipIdx_cons, foldlM_cons, bind_ok, hstep]
    constructor
    · rintro ⟨total, next, ⟨hword, rfl⟩, h⟩ i hi hi'
      rcases hi.eq_or_lt with rfl | hi
      · exact hword
      · exact ih.mp ⟨total, h⟩ i hi (by omega)
    · intro h
      obtain ⟨total, htot⟩ := (@ih (first + 1)).mpr fun i hi hi' => h i (by omega) (by omega)
      exact ⟨total, _, ⟨h first le_rfl (by omega), rfl⟩, htot⟩

end Names

section Offsets

variable {order : List Nat} {off : Nat}

lemma scanOffsets_eq_ok {poss : List Nat} {scan scan' : Scan} :
    poss.foldlM (index.scanOffset bytes) scan = .ok scan' ↔
      poss.foldlM (index.markSlot bytes) scan.used = .ok scan'.used ∧
        ∃ offsets, List.Forall₂ (index.offset bytes · = .ok ·) poss offsets ∧
          scan'.offsets = scan.offsets ++ offsets := by
  induction poss generalizing scan with
  | nil =>
    simp only [foldlM_nil, forall₂_nil_left_iff, exists_eq_left, append_nil]
    constructor
    · intro h
      cases h
      exact ⟨rfl, rfl⟩
    rintro ⟨hused, hoff⟩
    have hused' : scan.used = scan'.used := Except.ok.inj hused
    obtain ⟨used, offsets⟩ := scan
    obtain ⟨used', offsets'⟩ := scan'
    simp only at hused' hoff
    rw [hused', hoff]
    rfl
  | cons pos poss ih =>
    simp only [foldlM_cons, bind_ok, scanOffset, wrapError_eq_ok]
    constructor
    · rintro ⟨next, ⟨used, hused, off, hoffs, hnext⟩, h⟩
      cases hnext
      obtain ⟨hmar, offsets, hoff, hscan⟩ := ih.mp h
      exact ⟨⟨used, hused, hmar⟩, off :: offsets, .cons hoffs hoff, by rw [hscan, append_assoc]; rfl⟩
    · rintro ⟨⟨used, hused, hmar⟩, offsets, hoff, hscan⟩
      obtain ⟨off, rest, hoffs, hrest, rfl⟩ := forall₂_cons_left_iff.mp hoff
      refine ⟨_, ⟨used, hused, off, hoffs, rfl⟩, ih.mpr ⟨hmar, rest, hrest, ?_⟩⟩
      rw [hscan, append_assoc]
      rfl

lemma getElem?_foldl_set {rank : List Nat} (hnd : order.Nodup) (first : Nat)
    (hrank : ∀ pos ∈ order, pos < rank.length) {i : Nat} (hi : i < order.length) :
    ((order.zipIdx first).foldl (fun rank ent => rank.set ent.1 ent.2) rank)[order[i]]? =
      some (first + i) := by
  have hkeep : ∀ (order rank : List Nat) (first pos : Nat), pos ∉ order →
      ((order.zipIdx first).foldl (fun rank ent => rank.set ent.1 ent.2) rank)[pos]? = rank[pos]? := by
    intro order
    induction order with
    | nil => exact fun _ _ _ _ => rfl
    | cons other order ih =>
      intro rank first pos hpos
      obtain ⟨hne, hmem⟩ := not_or.mp (fun h => hpos (mem_cons.mpr h))
      rw [zipIdx_cons, foldl_cons, ih _ _ _ hmem, getElem?_set_ne (Ne.symm hne)]
  induction order generalizing rank first i with
  | nil => simp at hi
  | cons pos order ih =>
    obtain ⟨hnew, hnd⟩ := nodup_cons.mp hnd
    rw [zipIdx_cons, foldl_cons]
    cases i with
    | zero =>
      rw [getElem_cons_zero, hkeep _ _ _ _ hnew, getElem?_set_self (hrank pos mem_cons_self)]
      rfl
    | succ i =>
      rw [getElem_cons_succ, ih hnd (first + 1)]
      · congr 1
        omega
      · intro other hoth
        rw [length_set]
        exact hrank other (.tail _ hoth)

lemma ranks_getElem? (hperm : order.Perm (range order.length)) (hi : i < order.length) :
    (ranks order)[order[i]]? = some i := by
  have hrank := @getElem?_foldl_set order (replicate order.length 0) (hperm.nodup_iff.mpr nodup_range) 0
    (fun pos hpos => by rw [length_replicate]; exact mem_range.mp (hperm.mem_iff.mp hpos)) i hi
  rwa [zero_add] at hrank

lemma checkedOffset_bounds {fnd : Nat} (h : checkedOffset off packEnd = .ok fnd) :
    12 ≤ fnd ∧ fnd < packEnd := by
  simp only [checkedOffset, bind_ok, reject_ok] at h
  obtain ⟨-, hbound, h⟩ := h
  cases h
  omega

lemma offset_bounds {pos : Nat} (h : index.offset bytes pos = .ok off) :
    12 ≤ off ∧ off < index.packEnd := by
  unfold offset at h
  split_ifs at h
  · obtain ⟨raw, -, h⟩ := bind_ok.mp h
    exact checkedOffset_bounds h
  obtain ⟨raw, -, h⟩ := bind_ok.mp h
  split_ifs at h
  · exact checkedOffset_bounds h
  obtain ⟨-, -, h⟩ := bind_ok.mp h
  unfold largeOffset at h
  cases hsli : slice bytes (index.offsetTable + index.count * 4 + (raw &&& 0x7fffffff) * 8) 8 with
  | none =>
    rw [hsli] at h
    cases h
  | some large =>
    rw [hsli] at h
    exact checkedOffset_bounds h

end Offsets

section Validate

lemma validate_eq_ok :
    index.validate bytes = .ok () ↔ index.stray = false ∧ index.nameStart 0 ≤ bytes.length ∧
      (∀ pos < index.count, index.nameStart pos + index.format.digestLen ≤ bytes.length) ∧
      (∀ i j, i < j → j < index.count → index.name bytes i < index.name bytes j) ∧
      (∀ first < 256, word bytes (index.fanoutStart + first * 4) =
        .ok (index.before bytes (first + 1))) ∧
      ∃ order, index.order bytes = .ok order := by
  have htab := @checkCumulatives_iff index bytes (range index.count) 0 256
  rw [← range_eq_range', ← tally_eq, show below (index.initial bytes) (range index.count) 0 = 0 by simp [below]] at htab
  simp only [zero_le, true_implies, zero_add] at htab
  have hpair : (range index.count).Pairwise (index.name bytes · < index.name bytes ·) ↔
      ∀ i j, i < j → j < index.count → index.name bytes i < index.name bytes j := by
    rw [pairwise_iff_getElem]
    simp only [length_range, getElem_range]
    exact ⟨fun h i j hij hj => h i j (hij.trans hj) hj hij, fun h i j _ hj hij => h i j hij hj⟩
  simp only [validate, bind_ok, reject_ok, Bool.not_eq_true, not_lt]
  constructor
  · rintro ⟨-, hstream, -, hst, names, hnames, total, htot, order, hord, -⟩
    obtain ⟨hfits, -, hsort, rfl⟩ := checkNames_eq_ok.mp hnames
    exact ⟨hstream, hst, fun pos hpos => hfits pos (mem_range.mpr hpos), hpair.mp hsort,
      htab.mp ⟨total, htot⟩, order, hord⟩
  · rintro ⟨hstream, hst, hfits, hsort, hfan, order, hord⟩
    obtain ⟨total, htot⟩ := htab.mpr hfan
    have hnames := (@checkNames_eq_ok index bytes ⟨none, replicate 256 0⟩ _ (range index.count)).mpr
      ⟨fun pos hpos => hfits pos (mem_range.mp hpos), fun _ hprev => absurd hprev (by simp),
        hpair.mpr hsort, rfl⟩
    exact ⟨(), hstream, (), hst, _, hnames, total, htot, order, hord, rfl⟩

lemma order_eq_ok {order : Order} :
    index.order bytes = .ok order ↔ ∃ used offsets,
      (range index.count).foldlM (index.markSlot bytes) (List.replicate index.large false) = .ok used ∧
      false ∉ used ∧ List.Forall₂ (index.offset bytes · = .ok ·) (range index.count) offsets ∧
      (¬∃ pair ∈ (offsetOrder offsets).2.zip (offsetOrder offsets).2.tail, pair.1 = pair.2) ∧
      (offsetOrder offsets).2.headD index.packEnd = 12 ∧ order = ⟨(offsetOrder offsets).1, ranks (offsetOrder offsets).1⟩ := by
  simp only [Index.order, wrapError_eq_ok, buildOrder, bind_ok, reject_ok, not_not]
  constructor
  · rintro ⟨scan, hscan, -, hused, -, hdis, -, hfirst, h⟩
    cases h
    obtain ⟨hmar, offsets, hoff, hall⟩ := scanOffsets_eq_ok.mp hscan
    rw [hall] at hdis hfirst ⊢
    exact ⟨scan.used, offsets, hmar, hused, hoff, hdis, hfirst, rfl⟩
  · rintro ⟨used, offsets, hmar, hused, hoff, hdis, hfirst, rfl⟩
    have hscan := (@scanOffsets_eq_ok index bytes (range index.count)
      ⟨replicate index.large false, []⟩ ⟨used, offsets⟩).mpr
      ⟨hmar, offsets, hoff, (nil_append _).symm⟩
    exact ⟨_, hscan, (), hused, (), hdis, (), hfirst, rfl⟩

structure Valid (index : Index) (bytes : Bytes) (offsets : List Nat) (order : Order) : Prop where
  fits : ∀ position < index.count, index.nameStart position + index.format.digestLen ≤ bytes.length
  names : ∀ i j, i < j → j < index.count → index.name bytes i < index.name bytes j
  fanout : ∀ first < 256, word bytes (index.fanoutStart + first * 4) =
    .ok (index.before bytes (first + 1))
  crc : ∀ position < index.count, ∃ crc, index.crc bytes position = .ok crc
  built : index.order bytes = .ok order
  offset : ∀ position < index.count, index.offset bytes position = .ok (offsets.getD position 0)
  perm : order.order.Perm (List.range index.count)
  increasing : order.order.Pairwise fun a b => offsets.getD a 0 < offsets.getD b 0
  first : (order.order.map (offsets.getD · 0)).headD index.packEnd = 12
  rank : order.rank = ranks order.order

lemma crc_of_parse (h : Index.parse fmt bytes packEnd = .ok index) {pos : Nat}
    (hpos : pos < index.count) : ∃ crc, index.crc bytes pos = .ok crc := by
  simp only [Index.parse, bind_ok, reject_ok] at h
  obtain ⟨-, -, fanout, hfan, count, -, -, -, -, htab, -, -, -, -, hash, -, h⟩ := h
  cases h
  unfold crc
  simp only at hpos ⊢
  cases hleg : magic.isPrefixOf bytes with
  | false => exact ⟨none, rfl⟩
  | true =>
    simp only [hleg, Bool.not_true, Bool.false_eq_true, if_false] at hfan htab ⊢
    obtain ⟨ver, -, hfan⟩ := bind_ok.mp hfan
    obtain ⟨-, -, hfan⟩ := bind_ok.mp hfan
    cases hfan
    have hword : 1032 + count * fmt.digestLen + pos * 4 + 4 ≤ bytes.length := by
      have hnum : count * (fmt.digestLen + 8) = count * fmt.digestLen + count * 8 := mul_add _ _ _
      omega
    rw [word, if_pos hword]
    exact ⟨_, rfl⟩

lemma valid_of_validate (hpar : Index.parse fmt bytes packEnd = .ok index)
    (hvd : index.validate bytes = .ok ()) : ∃ offsets order, Valid index bytes offsets order := by
  obtain ⟨-, -, hfits, hnames, hfan, order, hord⟩ := validate_eq_ok.mp hvd
  obtain ⟨used, offsets, -, -, hoff, hdis, hfirst, rfl⟩ := order_eq_ok.mp hord
  have hlen : offsets.length = index.count := by rw [← hoff.length_eq, length_range]
  obtain ⟨hperm, hsort, hpair⟩ := offsetOrder_spec offsets
  have hstream := pairwise_lt_of_neighbours hpair hdis
  refine ⟨offsets, _, hfits, hnames, hfan, fun pos hpos => crc_of_parse hpar hpos, hord,
    fun pos hpos => ?_,
    hlen ▸ hperm, ?_, hsort ▸ hfirst, rfl⟩
  · have hget := (forall₂_iff_get.mp hoff).2 pos (by rwa [length_range]) (by rwa [hlen])
    simp only [get_eq_getElem, getElem_range] at hget
    rw [hget, getD_eq_getElem _ _ (by rwa [hlen])]
  · rw [hsort] at hstream
    exact pairwise_map.mp hstream

namespace Valid

variable {offsets : List Nat} {order : Order} (h : Valid index bytes offsets order)
include h

section Identities

variable {pos position j first : Nat}

lemma length_name (hpos : pos < index.count) :
    (index.name bytes pos).length = index.format.digestLen := by
  have hfits := h.fits pos hpos
  rw [name, length_take, length_drop]
  omega

lemma nameAt_eq (hpos : pos < index.count) :
    index.nameAt bytes pos = .ok (index.name bytes pos) := by
  rw [nameAt, slice, if_pos (h.fits pos hpos)]
  rfl

lemma identity_iff (hpos : position < index.count) {id : ObjectId} :
    index.identity bytes position = .ok id ↔
      id.format = index.format ∧ id.bytes = index.name bytes position := by
  unfold identity
  rw [bind_ok]
  simp only [h.nameAt_eq hpos, Except.ok.injEq, exists_eq_left', ObjectId.fromBytes,
    dif_pos (h.length_name hpos)]
  constructor
  · rintro rfl
    exact ⟨rfl, rfl⟩
  · rintro ⟨hform, hbs⟩
    exact ObjectId.ext hform.symm hbs.symm

lemma exists_identity (hpos : position < index.count) :
    ∃ id : ObjectId, index.identity bytes position = .ok id ∧ id.format = index.format ∧
      id.bytes = index.name bytes position := by
  let id : ObjectId := ⟨index.format, index.name bytes position, h.length_name hpos⟩
  exact ⟨id, (h.identity_iff hpos).mpr ⟨rfl, rfl⟩, rfl, rfl⟩

lemma name_le (hij : i ≤ j) (hj : j < index.count) : index.name bytes i ≤ index.name bytes j := by
  rcases hij.lt_or_eq with hij | rfl
  · exact (h.names i j hij hj).le
  · exact le_rfl

lemma initial_le (hij : i ≤ j) (hj : j < index.count) :
    index.initial bytes i ≤ index.initial bytes j := by
  have hle := h.name_le hij hj
  have hpos := index.format.digestLen_pos
  have hleni := h.length_name (hij.trans_lt hj)
  have hlenj := h.length_name hj
  unfold initial firstByte
  generalize index.name bytes i = a at hle hleni ⊢
  generalize index.name bytes j = b at hle hlenj ⊢
  cases a with
  | nil =>
    rw [length_nil] at hleni
    omega
  | cons x a =>
    cases b with
    | nil =>
      rw [length_nil] at hlenj
      omega
    | cons y b =>
      have hnot : ¬y :: b < x :: a := not_lt.mpr hle
      rw [cons_lt_cons_iff, not_or] at hnot
      exact UInt8.le_iff_toNat_le.mp (not_lt.mp hnot.1)

lemma bucketStart_eq (hfirst : first < 256) :
    index.bucketStart bytes first = .ok (index.before bytes first) := by
  unfold bucketStart
  split_ifs with hzero
  · simp [hzero, before, below]
  · rw [h.fanout (first - 1) (by omega), Nat.sub_add_cancel (Nat.pos_of_ne_zero hzero)]

lemma mem_bucket_iff (hpos : pos < index.count) :
    (index.before bytes first ≤ pos ∧
      pos < index.before bytes (first + 1)) ↔ index.initial bytes pos = first := by
  have hmono : ∀ i j, i ≤ j → j < index.count → index.initial bytes i ≤ index.initial bytes j :=
    fun i j => h.initial_le
  have hst : pos < index.before bytes first ↔ _ := lt_below_iff hmono first hpos
  have hstop : pos < index.before bytes (first + 1) ↔ _ := lt_below_iff hmono (first + 1) hpos
  omega

omit h in
lemma below_le_count (first : Nat) : index.before bytes first ≤ index.count :=
  (length_filter_le _ _).trans_eq length_range

lemma find_spec (id : ObjectId) :
    ∃ found, index.find bytes id = .ok found ∧ ∀ position, found = some position ↔
      position < index.count ∧ index.identity bytes position = .ok id := by
  have hfirst : firstByte id.bytes < 256 := UInt8.toNat_lt _
  have hhigh := @below_le_count index bytes (firstByte id.bytes + 1)
  have hcompare : ∀ i, index.before bytes (firstByte id.bytes) ≤ i →
      i < index.before bytes (firstByte id.bytes + 1) →
      index.compareName bytes id.bytes i = .ok (keyOrder (index.name bytes i) id.bytes) := by
    intro i _ hi
    exact bind_ok.mpr ⟨_, h.nameAt_eq (by omega), rfl⟩
  have hkeys : ∀ i j, index.before bytes (firstByte id.bytes) ≤ i → i < j →
      j < index.before bytes (firstByte id.bytes + 1) →
      index.name bytes i < index.name bytes j := fun i j _ hij hj => h.names i j hij (by omega)
  obtain ⟨found, hgot, hiff⟩ := search_key hcompare hkeys
  refine ⟨found, bind_ok.mpr ⟨_, h.bucketStart_eq hfirst, bind_ok.mpr ⟨_, h.fanout _ hfirst, hgot⟩⟩,
    fun position => ?_⟩
  rw [hiff]
  constructor
  · rintro ⟨hlow, hlt, hname⟩
    have hpos : position < index.count := by omega
    refine ⟨hpos, (h.identity_iff hpos).mpr ⟨?_, hname.symm⟩⟩
    -- names of two formats differ in length
    have hlen := h.length_name hpos
    rw [hname, id.width] at hlen
    cases hid : id.format <;> cases hidx : index.format <;> simp_all [ObjectFormat.digestLen]
  · rintro ⟨hpos, hid⟩
    obtain ⟨-, hbs⟩ := (h.identity_iff hpos).mp hid
    have hbuc := (h.mem_bucket_iff hpos).mpr (show index.initial bytes position = firstByte
      id.bytes by rw [initial, hbs])
    exact ⟨hbuc.1, hbuc.2, hbs.symm⟩

omit h in
lemma id_lt_iff {a b : ObjectId} (hform : a.format = b.format) : a < b ↔ a.bytes < b.bytes := by
  change toLex (a.format.rank, a.bytes) < toLex (b.format.rank, b.bytes) ↔ _
  rw [Prod.Lex.toLex_lt_toLex, hform]
  simp

lemma prefixRange_spec (pre : ObjectIdPrefix) :
    ∃ start stop, index.prefixRange bytes pre = .ok (start, stop) ∧ ∀ position, start ≤ position ∧
      position < stop ↔
      position < index.count ∧ ∃ id, index.identity bytes position = .ok id ∧ pre.matchesId id := by
  have hfirst : firstByte pre.lower.bytes < 256 := UInt8.toNat_lt _
  have hhigh := @below_le_count index bytes (firstByte pre.lower.bytes + 1)
  have hlow : index.before bytes (firstByte pre.lower.bytes) ≤
      index.before bytes (firstByte pre.lower.bytes + 1) :=
    below_mono _ _ (le_succ _)
  have hbuc := fun {position} (hpos : position < index.count) =>
    @mem_bucket_iff _ _ _ _ h _ (firstByte pre.lower.bytes) hpos
  have hst := h.bucketStart_eq hfirst
  have hstop := h.fanout _ hfirst
  generalize index.before bytes (firstByte pre.lower.bytes) = low at *
  generalize index.before bytes (firstByte pre.lower.bytes + 1) = high at *
  have : Nonempty ObjectId := ⟨pre.lower⟩
  choose! id hid hform hname using fun position (hpos : position < index.count) => h.exists_identity hpos
  have hids : ∀ i j, i ≤ j → j < index.count → id i ≤ id j := by
    intro i j hij hj
    rw [← not_lt, id_lt_iff ((hform j hj).trans (hform i (hij.trans_lt hj)).symm),
      hname i (hij.trans_lt hj), hname j hj, not_lt]
    exact h.name_le hij hj
  -- the identities below the smallest match come first, the matches after them
  obtain ⟨start, hbelow, hlow', hhigh', hall, hnone⟩ := @partitionPoint_spec _ (index.isBelow bytes pre)
    (fun i => decide (id i < pre.lower)) low high hlow
    (fun i _ hi => bind_ok.mpr ⟨_, hid i (by omega), rfl⟩)
    (fun i j _ hij hj hlt => decide_eq_true ((hids i j hij (by omega)).trans_lt (of_decide_eq_true hlt)))
  have hlower : ∀ i, start ≤ i → i < high → (id i).format = pre.lower.format →
      pre.lower.bytes ≤ (id i).bytes := by
    intro i hi hi' hsame
    have hnot := of_decide_eq_false (hnone i hi hi')
    rwa [id_lt_iff hsame, not_lt] at hnot
  obtain ⟨stop, hmatch, hst', hstop', hall', hnone'⟩ := @partitionPoint_spec _ (index.isMatch bytes pre)
    (fun i => pre.matchesId (id i)) start high hhigh'
    (fun i _ hi => bind_ok.mpr ⟨_, hid i (by omega), rfl⟩)
    (fun i j hi hij hj hmat => by
      have hsame : (id i).format = pre.lower.format := by
        rw [hform i (by omega), ← hform j (by omega)]
        exact (matchesId_iff.mp hmat).1
      refine matches_of_le hsame (hlower i hi (by omega) hsame) ?_ hmat
      rw [hname i (by omega), hname j (by omega)]
      exact h.name_le hij (by omega))
  refine ⟨start, stop, bind_ok.mpr ⟨_, hst, bind_ok.mpr ⟨_, hstop, bind_ok.mpr ⟨_, hbelow,
    bind_ok.mpr ⟨_, hmatch, rfl⟩⟩⟩⟩, fun position => ⟨?_, ?_⟩⟩
  · rintro ⟨hle, hlt⟩
    exact ⟨by omega, id position, hid position (by omega), hall' position hle hlt⟩
  rintro ⟨hpos, found, hgot, hmat⟩
  rw [hid position hpos] at hgot
  cases hgot
  have hini : index.initial bytes position = firstByte pre.lower.bytes := by
    rw [initial, ← hname position hpos, firstByte, headD_of_matches hmat, firstByte]
  obtain ⟨hge, hlt⟩ := (hbuc hpos).mpr hini
  refine ⟨?_, ?_⟩
  · by_contra hcon
    have hlt' := of_decide_eq_true (hall position hge (not_le.mp hcon))
    rw [id_lt_iff (matchesId_iff.mp hmat).1] at hlt'
    exact absurd (lower_le_of_matches hmat) (not_le.mpr hlt')
  · by_contra hcon
    rw [hnone' position (not_lt.mp hcon) hlt] at hmat
    cases hmat

end Identities

section Offsets

variable {rank position j : Nat}

lemma length_order : order.order.length = index.count := by rw [h.perm.length_eq, length_range]

lemma lt_count (hrank : rank < order.order.length) : order.order[rank] < index.count :=
  mem_range.mp (h.perm.mem_iff.mp (getElem_mem hrank))

lemma exists_rank (hpos : position < index.count) :
    ∃ rank, ∃ hrank : rank < order.order.length, order.order[rank] = position := by
  obtain ⟨rank, hrank⟩ := mem_iff_getElem.mp (h.perm.mem_iff.mpr (mem_range.mpr hpos))
  exact ⟨rank, hrank⟩

lemma increasing_getElem (hi : i < order.order.length) (hj : j < order.order.length) (hij : i < j) :
    offsets.getD order.order[i] 0 < offsets.getD order.order[j] 0 := pairwise_iff_getElem.mp h.increasing i j hi hj hij

lemma bounds {pos : Nat} (hpos : pos < index.count) :
    12 ≤ offsets.getD pos 0 ∧ offsets.getD pos 0 < index.packEnd := offset_bounds (h.offset pos hpos)

lemma atOffset_iff {offset : Nat} :
    index.atOffset bytes offset = .ok position ↔
      position < index.count ∧ index.offset bytes position = .ok offset := by
  have hcompare : ∀ i, 0 ≤ i → i < order.order.length → index.compareOffset bytes order offset i =
      .ok (keyOrder (offsets.getD (order.order.getD i 0) 0) offset) := by
    intro i _ hi
    unfold compareOffset
    rw [getElem?_eq_getElem hi, getD_eq_getElem order.order _ hi]
    exact bind_ok.mpr ⟨_, h.offset _ (h.lt_count hi), rfl⟩
  have hkeys : ∀ i j, 0 ≤ i → i < j → j < order.order.length →
      offsets.getD (order.order.getD i 0) 0 < offsets.getD (order.order.getD j 0) 0 := by
    intro i j _ hij hj
    rw [getD_eq_getElem order.order _ (hij.trans hj), getD_eq_getElem order.order _ hj]
    exact h.increasing_getElem (hij.trans hj) hj hij
  obtain ⟨found, hgot, hiff⟩ := search_key hcompare hkeys
  have hloo : index.atOffset bytes offset = .ok position ↔ found.bind (order.order[·]?) = some position := by
    unfold atOffset
    simp only [h.built, hgot, bind, Except.bind]
    cases found.bind (order.order[·]?) <;> simp
  rw [hloo, bind_eq_some_iff]
  constructor
  · rintro ⟨rank, hrank, hpos⟩
    obtain ⟨-, hlt, hoff⟩ := (hiff rank).mp hrank
    rw [getElem?_eq_getElem hlt] at hpos
    cases hpos
    rw [getD_eq_getElem order.order _ hlt] at hoff
    exact ⟨h.lt_count hlt, by rw [h.offset _ (h.lt_count hlt), hoff]⟩
  · rintro ⟨hpos, hoff⟩
    obtain ⟨rank, hrank, rfl⟩ := h.exists_rank hpos
    rw [h.offset _ hpos] at hoff
    refine ⟨rank, (hiff rank).mpr ⟨zero_le _, hrank, ?_⟩, getElem?_eq_getElem hrank⟩
    rw [getD_eq_getElem order.order _ hrank]
    exact Except.ok.inj hoff

def stopAt (index : Index) (offsets : List Nat) (order : Order) (rank : Nat) : Nat :=
  (order.order[rank + 1]?.map (offsets.getD · 0)).getD index.packEnd

lemma entry_eq (hrank : rank < order.order.length) :
    ∃ ent, index.entry bytes order.order[rank] = .ok ent ∧
      ent.offset = offsets.getD order.order[rank] 0 ∧
      ent.stop = stopAt index offsets order rank := by
  have hpos := h.lt_count hrank
  obtain ⟨id, hid, -⟩ := h.exists_identity hpos
  obtain ⟨crc, hcrc⟩ := h.crc _ hpos
  have hperm : order.order.Perm (range order.order.length) := h.length_order ▸ h.perm
  have hstop : index.stop bytes order order.order[rank] = .ok (stopAt index offsets order rank) := by
    unfold stop stopAt
    rw [h.rank, ranks_getElem? hperm hrank]
    simp only
    cases hnext : order.order[rank + 1]? with
    | none => rfl
    | some next =>
      have hlt : next < index.count := mem_range.mp (h.perm.mem_iff.mp (mem_of_getElem? hnext))
      simp [h.offset next hlt]
  refine ⟨⟨id, _, _, crc⟩, ?_, rfl, rfl⟩
  exact bind_ok.mpr ⟨_, h.built, bind_ok.mpr ⟨_, hid, bind_ok.mpr ⟨_, h.offset _ hpos,
    bind_ok.mpr ⟨_, hstop, bind_ok.mpr ⟨_, hcrc, rfl⟩⟩⟩⟩⟩

lemma stopAt_bounds (hrank : rank < order.order.length) :
    offsets.getD order.order[rank] 0 < stopAt index offsets order rank ∧
      stopAt index offsets order rank ≤ index.packEnd := by
  unfold stopAt
  by_cases hnext : rank + 1 < order.order.length
  · rw [getElem?_eq_getElem hnext, map_some, getD_some]
    exact ⟨h.increasing_getElem hrank hnext (lt_succ_self _), (h.bounds (h.lt_count hnext)).2.le⟩
  · rw [getElem?_eq_none (not_lt.mp hnext), map_none, getD_none]
    exact ⟨(h.bounds (h.lt_count hrank)).2, le_rfl⟩

lemma stopAt_le (hj : j < order.order.length) (hij : i < j) :
    stopAt index offsets order i ≤ offsets.getD order.order[j] 0 := by
  unfold stopAt
  rw [getElem?_eq_getElem (show i + 1 < order.order.length by omega), map_some, getD_some]
  rcases (succ_le_of_lt hij).lt_or_eq with hlt | heq
  · exact (h.increasing_getElem (by omega) hj hlt).le
  · simp [← heq]

/-- Every byte among the entries belongs to the entry of one rank. -/
lemma exists_stopAt {byte : Nat} (hlow : 12 ≤ byte) (hhigh : byte < index.packEnd) :
    ∃ rank, ∃ hrank : rank < order.order.length, offsets.getD order.order[rank] 0 ≤ byte ∧
      byte < stopAt index offsets order rank := by
  have hfirst := h.first
  have hpos : order.order ≠ [] := by
    intro hnil
    rw [hnil, map_nil, headD_nil] at hfirst
    omega
  have hlast : byte < stopAt index offsets order (order.order.length - 1) := by
    rw [stopAt, getElem?_eq_none (by omega)]
    exact hhigh
  have hex : ∃ rank, byte < stopAt index offsets order rank := ⟨_, hlast⟩
  -- the first entry that stops after the byte holds it
  obtain ⟨rank, hlt, hmin⟩ : ∃ rank, byte < stopAt index offsets order rank ∧
    ∀ before < rank, ¬byte < stopAt index offsets order before :=
    ⟨Nat.find hex, Nat.find_spec hex, fun _ => Nat.find_min hex⟩
  have hrank : rank < order.order.length := by
    have := length_pos_of_ne_nil hpos
    by_contra hge
    exact hmin _ (by omega) hlast
  refine ⟨rank, hrank, ?_, hlt⟩
  cases rank with
  | zero =>
    rw [headD_eq_head?_getD, head?_map, head?_eq_getElem?, getElem?_eq_getElem hrank] at hfirst
    exact hfirst.trans_le hlow
  | succ rank =>
    have hbf := hmin rank (lt_succ_self rank)
    rw [stopAt, getElem?_eq_getElem hrank, map_some, getD_some] at hbf
    exact not_lt.mp hbf

end Offsets

end Valid

end Validate

end Index

lemma packEnd_of_parse {bytes : Bytes} {index : Index}
    (h : Index.parse fmt bytes packEnd = .ok index) : index.packEnd = packEnd := by
  simp only [Index.parse, bind_ok, reject_ok] at h
  obtain ⟨-, -, fanout, -, count, -, -, -, -, -, -, -, -, -, hash, -, h⟩ := h
  cases h
  rfl

end Girt.Pack
