import Girt.Refs.Files.Publish

/-!
# Removing a packed record

A packed file without the record of a name parses to the same records without that name.
-/

namespace Girt.Proofs
open ByteLib Pieces Girt.Refs Girt.Refs.Files List

section Lines

variable {width : Nat} {name line : Bytes}

lemma startsWith_line (line : Bytes) :
    (ascii "^").isPrefixOf (line ++ [newline]) = (ascii "^").isPrefixOf line := by
  have hcar : ascii "^" = [94] := by decide
  cases line with
  | nil => decide
  | cons b line => simp [hcar, isPrefixOf]

lemma isRecordOf_line : isRecordOf width name (line ++ [newline]) ↔
    (line)[width]? = some space ∧ line.drop (width + 1) = name := by
  unfold isRecordOf
  by_cases hw : width < line.length
  · rw [getElem?_append_left hw]
    simp [Nat.succ_le_of_lt hw]
  have hnone : (line)[width]? = none := getElem?_eq_none (not_lt.mp hw)
  simp [hnone]
  intro _ h
  exact absurd h hw

/-- `withoutLines` on lines without their terminators. -/
def keptLines (width : Nat) (name : Bytes) (rem : Bool) : List Bytes → List Bytes
  | [] => []
  | line :: rest =>
    if (ascii "^").isPrefixOf line && rem then keptLines width name rem rest
    else if (line)[width]? = some space ∧ line.drop (width + 1) = name then keptLines width name true rest
    else line :: keptLines width name false rest

lemma withoutLines_eq (rem : Bool) (lines : List Bytes) :
    withoutLines width name rem (lines.map (· ++ [newline])) =
      (keptLines width name rem lines).map (· ++ [newline]) := by
  induction lines generalizing rem with
  | nil => rfl
  | cons line lines ih =>
    rw [map_cons, withoutLines, keptLines, startsWith_line]
    by_cases hpeel : ((ascii "^").isPrefixOf line && rem)
    · rw [if_pos hpeel, if_pos hpeel, ih]
    rw [if_neg hpeel, if_neg hpeel]
    by_cases hrec : (line)[width]? = some space ∧ line.drop (width + 1) = name
    · rw [if_pos (isRecordOf_line.mpr hrec), if_pos hrec, ih]
    · rw [if_neg (fun h => hrec (isRecordOf_line.mp h)), if_neg hrec, map_cons, ih]

lemma keptLines_subset {rem : Bool} {lines : List Bytes}
    (h : line ∈ keptLines width name rem lines) : line ∈ lines := by
  induction lines generalizing rem with
  | nil => exact h
  | cons first lines ih =>
    rw [keptLines] at h
    split_ifs at h
    · exact .tail _ (ih h)
    · exact .tail _ (ih h)
    · rcases mem_cons.mp h with rfl | h
      · exact .head _
      · exact .tail _ (ih h)

end Lines

lemma refName_ne_nil (name : RefName) : name.bytes ≠ [] := by
  intro h
  have hvd := name.valid
  rw [h] at hvd
  exact absurd hvd (by decide)

lemma refName_byte {name : RefName} {b : UInt8} (hb : b ∈ name.bytes) : ¬ b ≤ 32 := by
  have hvd := name.valid
  rcases Bool.or_eq_true_iff.mp hvd with hhead | hrest
  · rw [eq_of_beq hhead] at hb
    have hall : ∀ b ∈ ascii "HEAD", ¬ b ≤ 32 := by decide +kernel
    exact hall b hb
  intro hle
  have hany : name.bytes.any (fun b => b ≤ 32 || b == 127 || (ascii "~^:?*[\\").contains b) :=
    any_eq_true.mpr ⟨b, hb, by simp [hle]⟩
  simp only [Bool.not_eq_true', Bool.or_eq_false_iff] at hrest
  rw [hrest.1.2] at hany
  cases hany

lemma readTrait_names {sorted sorted' : Bool} {name : Bytes}
    (h : readTrait sorted name = .ok sorted') :
    name ∈ [ascii "peeled", ascii "fully-peeled", ascii "sorted"] := by
  unfold readTrait at h
  split_ifs at h with h1 h2
  · rcases h1 with rfl | rfl <;> simp
  · simp [h2]

lemma header_not_record {fmt : ObjectFormat} {path : Path} {scan scan' : PackedScan} {idx : Nat}
    {line : Bytes} {name : RefName} (h : readHeader path scan idx line = .ok scan') :
    ¬ ((line)[fmt.digestLen * 2]? = some space ∧ line.drop (fmt.digestLen * 2 + 1) = name.bytes) := by
  rintro ⟨hsp, hname⟩
  simp only [readHeader, bind_ok, reject_ok] at h
  obtain ⟨-, -, sorted, hfold, -⟩ := h
  have hwd : headerStart.length ≤ fmt.digestLen * 2 := by cases fmt <;> decide
  obtain ⟨extra, hext⟩ := Nat.exists_eq_add_of_le hwd
  -- the name field is the last piece of the traits
  have hdrop : line.drop headerStart.length = (line.drop headerStart.length).take extra ++
      space :: name.bytes := by
    have hget : (line.drop headerStart.length)[extra]? = some space := by
      rw [getElem?_drop, ← hext, hsp]
    have htail : (line.drop headerStart.length).drop extra = space :: name.bytes := by
      obtain ⟨hlt, hval⟩ := List.getElem?_eq_some_iff.mp hget
      rw [drop_eq_getElem_cons hlt, hval, drop_drop]
      have hadd : headerStart.length + (extra + 1) = fmt.digestLen * 2 + 1 := by omega
      rw [hadd, hname]
    rw [← htail, take_append_drop]
  have hbl : space ∉ name.bytes := fun hs => refName_byte hs (by decide)
  have hpc : name.bytes ∈ (line.drop headerStart.length).splitOn space := by
    rw [hdrop]
    exact mem_splitOn_of_append hbl
  have htra : name.bytes ∈ ((line.drop headerStart.length).splitOn space).filter (· ≠ []) :=
    mem_filter.mpr ⟨hpc, by simp [refName_ne_nil name]⟩
  have hall := foldlM_ok_of_mem hfold htra
  obtain ⟨sorted₁, sorted₂, hread⟩ := hall
  have hvd := name.valid
  have hnames := readTrait_names hread
  simp only [mem_cons, not_mem_nil, or_false] at hnames
  rcases hnames with hn | hn | hn <;> rw [hn] at hvd <;> exact absurd hvd (by decide)

/-- Two scans of the same file, the second without the record of `name`. While `removed`, the last
record of the first scan is the one that the second left out. -/
structure Pruned (name : RefName) (rem : Bool) (s s' : PackedScan) : Prop where
  entries : ∀ key, s'.entries.get key = if key = name.bytes then none else s.entries.get key
  sorted : s'.sorted = s.sorted
  previous : s.sorted = true → ∀ last' ∈ s'.previous, ∃ last ∈ s.previous, last'.bytes ≤ last.bytes
  kept : rem = false → s'.previous = s.previous ∧ s'.canPeel = s.canPeel ∧ s.previous ≠ some name
  gone : rem = true → s.previous = some name

lemma Pruned.start (name : RefName) :
    Pruned name false ⟨.empty, none, false, false⟩ ⟨.empty, none, false, false⟩ where
  entries key := by simp
  sorted := rfl
  previous h := by cases h
  kept _ := ⟨rfl, rfl, by simp⟩
  gone h := by cases h

section Pruned

variable {fmt : ObjectFormat} {path : Path} {name : RefName} {rem : Bool} {s s' t : PackedScan}
  {line : Bytes}

lemma readHeader_pruned {idx : Nat} (hs : Pruned name rem s s')
    (hfirst : s.previous = none ∧ s'.previous = none) (h : readHeader path s idx line = .ok t) :
    ∃ t', readHeader path s' idx line = .ok t' ∧ Pruned name false t t' := by
  have hrem : rem = false := by
    cases rem with
    | false => rfl
    | true => exact absurd (hfirst.1.symm.trans (hs.gone rfl)) (by simp)
  simp only [readHeader, bind_ok, reject_ok] at h ⊢
  obtain ⟨u, hidx, sorted, hfold, h⟩ := h
  cases h
  rw [← hs.sorted] at hfold
  refine ⟨_, ⟨u, hidx, sorted, hfold, rfl⟩, hs.entries, rfl, ?_, fun _ => hs.kept hrem,
    fun hf => by cases hf⟩
  intro _ last' hlast
  rw [hfirst.2] at hlast
  cases hlast

lemma readPeel_eq_ok : readPeel fmt path s line = .ok t ↔ s.canPeel ∧ ∃ peeled last ent,
    parseId fmt (line.drop 1) path = .ok peeled ∧ s.previous = some last ∧
    s.entries.get last.bytes = some ent ∧
    t = ⟨s.entries.insert last.bytes { ent with peeledHint := some peeled }, s.previous, false, s.sorted⟩ := by
  simp only [readPeel, bind_ok, reject_ok, Bool.not_eq_false]
  constructor
  · rintro ⟨-, hcan, peeled, hid, h⟩
    split at h
    · cases h
    rename_i last ent hfind
    obtain ⟨last', hlast, hmap⟩ := Option.bind_eq_some_iff.mp hfind
    obtain ⟨ent', hen, heq⟩ := Option.map_eq_some_iff.mp hmap
    cases heq
    cases h
    exact ⟨hcan, peeled, last, ent, hid, hlast, hen, rfl⟩
  · rintro ⟨hcan, peeled, last, ent, hid, hlast, hen, rfl⟩
    refine ⟨(), hcan, peeled, hid, ?_⟩
    simp [hlast, hen]

lemma readPeel_pruned (hs : Pruned name false s s') (h : readPeel fmt path s line = .ok t) :
    ∃ t', readPeel fmt path s' line = .ok t' ∧ Pruned name false t t' := by
  obtain ⟨hprev, hpeel, hname⟩ := hs.kept rfl
  obtain ⟨hcan, peeled, last, entry, hid, hlast, hen, rfl⟩ := readPeel_eq_ok.mp h
  have hne : last.bytes ≠ name.bytes := fun heq => hname (by rw [hlast, RefName.ext heq])
  have hen' : s'.entries.get last.bytes = some entry := by
    rw [hs.entries, if_neg hne, hen]
  refine ⟨_, readPeel_eq_ok.mpr ⟨hpeel.trans hcan, peeled, last, entry, hid, hprev.trans hlast, hen', rfl⟩,
    ?_, hs.sorted, hs.previous, fun _ => ⟨hprev, rfl, hname⟩, fun hf => by cases hf⟩
  intro key
  rw [OrdMap.get_insert, OrdMap.get_insert, hs.entries]
  by_cases hkey : key = last.bytes
  · rw [if_pos hkey, if_pos hkey, if_neg (by rw [hkey]; exact hne)]
  · rw [if_neg hkey, if_neg hkey]

lemma parseId_length {bs : Bytes} {id : ObjectId} (h : parseId fmt bs path = .ok id) :
    bs.length = fmt.digestLen * 2 := by
  simp only [parseId, bind_ok, reject_ok, not_not] at h
  exact h.choose_spec.1

lemma readPeel_not_record (h : readPeel fmt path s line = .ok t) :
    ¬ ((line)[fmt.digestLen * 2]? = some space ∧ line.drop (fmt.digestLen * 2 + 1) = name.bytes) := by
  rintro ⟨-, hname⟩
  obtain ⟨-, peeled, -, -, hid, -⟩ := readPeel_eq_ok.mp h
  have hlen : (line.drop 1).length = fmt.digestLen * 2 := parseId_length hid
  rw [length_drop] at hlen
  have hle : line.length ≤ fmt.digestLen * 2 + 1 := by omega
  rw [drop_eq_nil_of_le hle] at hname
  exact refName_ne_nil name hname.symm

lemma readPeel_removed (hs : Pruned name true s s') (h : readPeel fmt path s line = .ok t) :
    Pruned name true t s' := by
  obtain ⟨-, peeled, last, ent, -, hlast, -, rfl⟩ := readPeel_eq_ok.mp h
  have heq : last = name := Option.some.inj (hlast.symm.trans (hs.gone rfl))
  refine ⟨?_, hs.sorted, hs.previous, fun hf => (by cases hf), fun _ => hs.gone rfl⟩
  intro key
  rw [hs.entries, OrdMap.get_insert, heq]
  by_cases hkey : key = name.bytes
  · rw [if_pos hkey, if_pos hkey]
  · rw [if_neg hkey, if_neg hkey, if_neg hkey]

lemma recordFields_eq_some {width : Nat} {idField nameField : Bytes} :
    recordFields width line = some (idField, nameField) ↔ (line)[width]? = some space ∧
      idField = line.take width ∧ nameField = line.drop (width + 1) ∧ nameField ≠ [] := by
  unfold recordFields
  by_cases hw : width < line.length
  · have hget : (line)[width]? = some (line)[width] := getElem?_eq_getElem hw
    rw [if_neg (not_lt.mpr hw.le), drop_eq_getElem_cons hw, hget]
    by_cases hbl : (line)[width] = space
    · rw [hbl]
      simp only [space]
      split_ifs with hnil
      · simp [hnil]
      · grind
    · split
      · rename_i heq
        exact absurd (cons.inj heq).1 hbl
      · simp [hbl]
  · have hnone : (line)[width]? = none := getElem?_eq_none (not_lt.mp hw)
    rw [hnone, drop_eq_nil_of_le (not_lt.mp hw)]
    simp

lemma readRecord_eq_ok : readRecord fmt path s line = .ok t ↔ ∃ id rec,
    (line)[fmt.digestLen * 2]? = some space ∧ line.drop (fmt.digestLen * 2 + 1) = RefName.bytes rec ∧
    parseId fmt (line.take (fmt.digestLen * 2)) path = .ok id ∧
    ¬ (rec = RefName.head ∨ rec.perWorktree) ∧
    ¬ (s.sorted ∧ s.previous.any (rec.bytes ≤ ·.bytes)) ∧
    s.entries.get rec.bytes = none ∧
    t = ⟨s.entries.insert rec.bytes ⟨id, none⟩, some rec, true, s.sorted⟩ := by
  have hcon : ∀ key, ¬ s.entries.contains key ↔ s.entries.get key = none := by
    simp [OrdMap.contains]
  constructor
  · intro h
    unfold readRecord at h
    split at h
    · cases h
    rename_i idField nameField hfield
    obtain ⟨hbl, rfl, rfl, -⟩ := recordFields_eq_some.mp hfield
    obtain ⟨id, hid, h⟩ := bind_ok.mp h
    split at h
    · cases h
    rename_i rec hnew
    simp only [bind_ok, reject_ok, hcon] at h
    obtain ⟨-, hcommon, -, hsort, -, hfr, h⟩ := h
    cases h
    exact ⟨id, rec, hbl, (RefName.new_eq_some hnew).symm, hid, hcommon, hsort, hfr, rfl⟩
  · rintro ⟨id, rec, hbl, hname, hid, hcommon, hsort, hfr, rfl⟩
    have hfield : recordFields (fmt.digestLen * 2) line = some (line.take (fmt.digestLen * 2), rec.bytes) :=
      recordFields_eq_some.mpr ⟨hbl, rfl, hname.symm, refName_ne_nil rec⟩
    unfold readRecord
    simp only [hfield, RefName.new_bytes, bind_ok, reject_ok, hcon]
    exact ⟨id, hid, (), hcommon, (), hsort, (), hfr, rfl⟩

lemma readRecord_pruned (hs : Pruned name rem s s')
    (hoth : ¬ ((line)[fmt.digestLen * 2]? = some space ∧ line.drop (fmt.digestLen * 2 + 1) = name.bytes))
    (h : readRecord fmt path s line = .ok t) :
    ∃ t', readRecord fmt path s' line = .ok t' ∧ Pruned name false t t' := by
  obtain ⟨id, rec, hbl, hrec, hid, hcommon, hsort, hfr, rfl⟩ := readRecord_eq_ok.mp h
  have hne : rec.bytes ≠ name.bytes := fun heq => hoth ⟨hbl, hrec.trans heq⟩
  have hfr' : s'.entries.get rec.bytes = none := by
    rw [hs.entries, if_neg hne, hfr]
  have hsort' : ¬ (s'.sorted ∧ s'.previous.any (rec.bytes ≤ ·.bytes)) := by
    rintro ⟨hs', hany⟩
    rw [hs.sorted] at hs'
    cases hlast' : s'.previous with
    | none =>
      rw [hlast'] at hany
      cases hany
    | some last' =>
      rw [hlast'] at hany
      have hle' : rec.bytes ≤ last'.bytes := of_decide_eq_true hany
      obtain ⟨last, hlast, hle⟩ := hs.previous hs' last' hlast'
      refine hsort ⟨hs', ?_⟩
      rw [Option.mem_def.mp hlast]
      exact decide_eq_true (hle'.trans hle)
  refine ⟨_, readRecord_eq_ok.mpr ⟨id, rec, hbl, hrec, hid, hcommon, hsort', hfr', rfl⟩,
    ?_, hs.sorted, ?_, fun _ => ⟨rfl, rfl, ?_⟩, fun hf => by cases hf⟩
  · intro key
    rw [OrdMap.get_insert, OrdMap.get_insert, hs.entries]
    by_cases hkey : key = rec.bytes
    · rw [if_pos hkey, if_pos hkey, if_neg (by rw [hkey]; exact hne)]
    · rw [if_neg hkey, if_neg hkey]
  · exact fun _ last hlast => ⟨last, hlast, le_refl _⟩
  · intro heq
    exact hne (congrArg RefName.bytes (Option.some.inj heq))

lemma readRecord_removed (hs : Pruned name rem s s')
    (hname : line.drop (fmt.digestLen * 2 + 1) = name.bytes)
    (h : readRecord fmt path s line = .ok t) : Pruned name true t s' := by
  obtain ⟨id, rec, -, hrec, -, -, hsort, -, rfl⟩ := readRecord_eq_ok.mp h
  have heq : rec = name := RefName.ext (hrec.symm.trans hname)
  subst heq
  refine ⟨?_, hs.sorted, ?_, fun hf => (by cases hf), fun _ => rfl⟩
  · intro key
    rw [hs.entries, OrdMap.get_insert]
    by_cases hkey : key = rec.bytes
    · rw [if_pos hkey, if_pos hkey]
    · rw [if_neg hkey, if_neg hkey, if_neg hkey]
  · intro hs' last' hlast'
    obtain ⟨last, hlast, hle⟩ := hs.previous hs' last' hlast'
    refine ⟨rec, rfl, ?_⟩
    have hlt : ¬ rec.bytes ≤ last.bytes := by
      intro hge
      apply hsort
      refine ⟨hs', ?_⟩
      rw [Option.mem_def.mp hlast]
      exact decide_eq_true hge
    exact hle.trans (not_le.mp hlt).le

lemma header_not_peel (h : headerStart.isPrefixOf line) : (ascii "^").isPrefixOf line = false := by
  cases line with
  | nil => rfl
  | cons b line =>
    have hstarts := isPrefixOf_iff_prefix.mp h
    have hst : headerStart = 35 :: headerStart.tail := by decide
    rw [hst, cons_prefix_cons] at hstarts
    rw [← hstarts.1]
    rfl

/-- Scanning the kept lines keeps the scans in step. The induction is on the lines; only the first
line of the file may be a header, and it is kept. -/
lemma scan_keptLines {lines : List Bytes} {n n' : Nat} (hs : Pruned name rem s s')
    (hfirst : n = 0 → n' = 0 ∧ s.previous = none ∧ s'.previous = none)
    (h : (lines.zipIdx n).foldlM (readPackedLine fmt path) s = .ok t) :
    ∃ t' rem', ((keptLines (fmt.digestLen * 2) name.bytes rem lines).zipIdx n').foldlM
      (readPackedLine fmt path) s' = .ok t' ∧ Pruned name rem' t t' := by
  induction lines generalizing s s' rem n n' with
  | nil =>
    cases h
    exact ⟨s', rem, rfl, hs⟩
  | cons line lines ih =>
    rw [zipIdx_cons, foldlM_cons, bind_ok] at h
    obtain ⟨u, hline, h⟩ := h
    have hlat : ∀ m, n + 1 = 0 → m = 0 ∧ u.previous = none ∧ s'.previous = none := fun _ hn => by omega
    -- a line that both scans read alike
    have hkeep : ∀ u', readPackedLine fmt path s' (line, n') = .ok u' → Pruned name false u u' →
        ∃ t' rem', ((line :: keptLines (fmt.digestLen * 2) name.bytes false lines).zipIdx n').foldlM
          (readPackedLine fmt path) s' = .ok t' ∧ Pruned name rem' t t' := by
      intro u' hu' hpru
      obtain ⟨t', rem', hrun, ht⟩ := @ih _ u u' (n + 1) (n' + 1) hpru (fun hn => by omega) h
      refine ⟨t', rem', ?_, ht⟩
      rw [zipIdx_cons, foldlM_cons, bind_ok]
      exact ⟨u', hu', hrun⟩
    unfold readPackedLine at hline
    rw [keptLines]
    split_ifs at hline with hhd hpeel
    · have hzero : n = 0 := by
        by_contra hn
        simp only [readHeader, bind_ok, reject_ok] at hline
        exact hline.choose_spec.1 hn
      obtain ⟨hn', hprev⟩ := hfirst hzero
      obtain ⟨u', hu', hpru⟩ := readHeader_pruned hs hprev hline
      rw [header_not_peel hhd, Bool.false_and, if_neg (by decide), if_neg (header_not_record hline)]
      refine hkeep u' ?_ hpru
      unfold readPackedLine
      rw [if_pos hhd, hn', ← hzero]
      exact hu'
    · cases rem with
      | true =>
        rw [hpeel, Bool.true_and, if_pos rfl]
        exact ih (readPeel_removed hs hline) (hlat n') h
      | false =>
        obtain ⟨u', hu', hpru⟩ := readPeel_pruned hs hline
        rw [Bool.and_false, if_neg (by decide), if_neg (readPeel_not_record hline)]
        refine hkeep u' ?_ hpru
        unfold readPackedLine
        rw [if_neg hhd, if_pos hpeel]
        exact hu'
    · rw [Bool.eq_false_iff.mpr hpeel, Bool.false_and, if_neg (by decide)]
      by_cases hrec : (line)[fmt.digestLen * 2]? = some space ∧ line.drop (fmt.digestLen * 2 + 1) = name.bytes
      · rw [if_pos hrec]
        exact ih (readRecord_removed hs hrec.2 hline) (hlat n') h
      obtain ⟨u', hu', hpru⟩ := readRecord_pruned hs hrec hline
      rw [if_neg hrec]
      refine hkeep u' ?_ hpru
      unfold readPackedLine
      rw [if_neg hhd, if_neg hpeel]
      exact hu'

end Pruned

lemma parsePacked_nil (fmt : ObjectFormat) (path : Path) : parsePacked fmt [] path = .ok .empty := rfl

/-- The packed file without the record of a name holds the other records, unchanged. -/
theorem parsePacked_withoutRef {fmt : ObjectFormat} {path : Path} {bs : Bytes} {packed : Packed} {name : RefName}
    (h : parsePacked fmt bs path = .ok packed) :
    ∃ packed', parsePacked fmt (withoutRef fmt bs name) path = .ok packed' ∧
      ∀ key, packed'.get key = if key = name.bytes then none else packed.get key := by
  unfold parsePacked at h
  split_ifs at h with hnil hend
  · subst hnil
    cases h
    exact ⟨.empty, rfl, by simp⟩
  obtain ⟨scan, hscan, h⟩ := bind_ok.mp h
  cases h
  have hbs : bs = joinLines newline (bs.dropLast.splitOn newline) :=
    (joinLines_splitOn (not_not.mp hend)).symm
  have hlines : ∀ line ∈ bs.dropLast.splitOn newline, newline ∉ line :=
    fun _ hl => not_mem_of_mem_splitOn hl
  set lines := bs.dropLast.splitOn newline
  set kept := keptLines (fmt.digestLen * 2) name.bytes false lines with hkept
  have hwit : withoutRef fmt bs name = joinLines newline kept := by
    unfold withoutRef
    rw [hbs, splitInclusive_joinLines hlines, withoutLines_eq, ← flatMap_def]
    rfl
  obtain ⟨t, rem, hrun, hpru⟩ := @scan_keptLines fmt path name false _ _ scan lines 0 0
    (Pruned.start name) (fun _ => ⟨rfl, rfl, rfl⟩) hscan
  refine ⟨t.entries, ?_, hpru.entries⟩
  rw [hwit]
  rw [← hkept] at hrun
  by_cases hemp : kept = []
  · rw [hemp] at hrun ⊢
    cases hrun
    exact parsePacked_nil fmt path
  have hkep : ∀ line ∈ kept, newline ∉ line := fun line hl => hlines line (keptLines_subset hl)
  have hjoin := @joinLines_eq_intercalate _ newline kept hemp
  unfold parsePacked
  rw [if_neg (by rw [hjoin]; simp), if_neg (by rw [hjoin]; simp), splitOn_joinLines hkep hemp, hrun]
  rfl

end Girt.Proofs
