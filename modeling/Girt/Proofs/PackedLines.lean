import Girt.Proofs.FilesPacked

/-!
# The lines of a packed file without a name

Removing a name takes out the line of its record and of its peeled identity, and no other.
-/

namespace Girt.Proofs
open ByteLib Pieces Girt.Refs Girt.Refs.Files List

/-- The line of a name's record and, if there is one, the line of its peeled identity. -/
def nameLines (width : Nat) (name : Bytes) : List Bytes → List Bytes
  | [] => []
  | line :: rest =>
    if isRecordOf width name line then line :: (rest.head?.filter (ascii "^").isPrefixOf).toList
    else nameLines width name rest

/-- Whether an unterminated line has the shape of a record of a name. -/
def HasName (width : Nat) (name line : Bytes) : Prop := (line)[width]? = some space ∧ line.drop (width + 1) = name

def IsPeel (line : Bytes) : Prop := (ascii "^").isPrefixOf line = true

section Read

variable {fmt : ObjectFormat} {path : Path} {name : RefName} {s u t : PackedScan} {line : Bytes} {n : Nat}

lemma read_hasName (h : readPackedLine fmt path s (line, n) = .ok u)
    (hname : HasName (fmt.digestLen * 2) name.bytes line) :
    ¬ IsPeel line ∧ s.entries.get name.bytes = none ∧ u.entries.get name.bytes ≠ none := by
  unfold readPackedLine at h
  split_ifs at h with hhd hpeel
  · exact absurd hname (header_not_record h)
  · exact absurd hname (readPeel_not_record h)
  obtain ⟨id, rec, -, hrec, -, -, -, hfr, rfl⟩ := readRecord_eq_ok.mp h
  have heq : rec.bytes = name.bytes := hrec.symm.trans hname.2
  rw [heq] at hfr ⊢
  refine ⟨hpeel, hfr, ?_⟩
  rw [OrdMap.get_insert, if_pos rfl]
  exact Option.some_ne_none _

lemma read_isPeel (h : readPackedLine fmt path s (line, n) = .ok u) (hpeel : IsPeel line) :
    s.canPeel ∧ u.canPeel = false := by
  unfold readPackedLine at h
  split_ifs at h with hhd hcar
  · exact absurd ((header_not_peel hhd).symm.trans hpeel) (by decide)
  · obtain ⟨hcan, _, _, _, _, _, _, rfl⟩ := readPeel_eq_ok.mp h
    exact ⟨hcan, rfl⟩
  · exact absurd hpeel hcar

lemma read_keeps (h : readPackedLine fmt path s (line, n) = .ok u) {key : Bytes}
    (hkey : s.entries.get key ≠ none) : u.entries.get key ≠ none := by
  unfold readPackedLine at h
  split_ifs at h with hhd hpeel
  · simp only [readHeader, bind_ok, reject_ok] at h
    obtain ⟨-, -, sorted, -, h⟩ := h
    cases h
    exact hkey
  · obtain ⟨-, peeled, last, ent, -, -, -, rfl⟩ := readPeel_eq_ok.mp h
    rw [OrdMap.get_insert]
    split_ifs
    · exact Option.some_ne_none _
    · exact hkey
  · obtain ⟨id, rec, -, -, -, -, -, -, rfl⟩ := readRecord_eq_ok.mp h
    rw [OrdMap.get_insert]
    split_ifs
    · exact Option.some_ne_none _
    · exact hkey

lemma scan_hasName {lines : List Bytes} (hget : s.entries.get name.bytes ≠ none)
    (h : (lines.zipIdx n).foldlM (readPackedLine fmt path) s = .ok t) :
    ∀ line ∈ lines, ¬ HasName (fmt.digestLen * 2) name.bytes line := by
  induction lines generalizing s n with
  | nil => simp
  | cons first lines ih =>
    rw [zipIdx_cons, foldlM_cons, bind_ok] at h
    obtain ⟨u, hfirst, h⟩ := h
    intro line hline
    rcases mem_cons.mp hline with rfl | hline
    · exact fun hname => hget (read_hasName hfirst hname).2.1
    · exact ih (read_keeps hfirst hget) h line hline

lemma scan_peel {lines : List Bytes}
    (h : (lines.zipIdx n).foldlM (readPackedLine fmt path) s = .ok t) :
    ∀ line ∈ lines, HasName (fmt.digestLen * 2) name.bytes line → ¬ IsPeel line := by
  induction lines generalizing s n with
  | nil => simp
  | cons first lines ih =>
    rw [zipIdx_cons, foldlM_cons, bind_ok] at h
    obtain ⟨u, hfirst, h⟩ := h
    intro line hline hname
    rcases mem_cons.mp hline with rfl | hline
    · exact (read_hasName hfirst hname).1
    · exact ih h line hline hname

end Read

/-- The lines of a name's record between the lines before and after them. -/
structure Parted (width : Nat) (name : Bytes) (lines pre gone after : List Bytes) : Prop where
  lines_eq : lines = pre ++ (gone ++ after)
  /-- Either the name has no record, or its record has at most one peeled line. -/
  shape : gone = [] ∧ after = [] ∨ ∃ record peel, gone = record :: peel ∧ HasName width name record ∧ ¬ IsPeel record ∧
    (∀ line ∈ peel, IsPeel line) ∧ peel.length ≤ 1 ∧ (∀ line ∈ after.head?, ¬ IsPeel line)
  others : ∀ line ∈ pre ++ after, ¬ HasName width name line

section Parted

variable {fmt : ObjectFormat} {path : Path} {name : RefName} {s t : PackedScan} {n : Nat} {lines : List Bytes}

/-- A scanned file is parted by each name. The induction is on the lines, up to the record of the name. -/
lemma parted_of_scan (h : (lines.zipIdx n).foldlM (readPackedLine fmt path) s = .ok t) :
    ∃ pre gone after, Parted (fmt.digestLen * 2) name.bytes lines pre gone after := by
  induction lines generalizing s n with
  | nil => exact ⟨[], [], [], rfl, .inl ⟨rfl, rfl⟩, by simp⟩
  | cons line lines ih =>
    rw [zipIdx_cons, foldlM_cons, bind_ok] at h
    obtain ⟨u, hline, h⟩ := h
    by_cases hname : HasName (fmt.digestLen * 2) name.bytes line
    · obtain ⟨hpeel, -, hget⟩ := read_hasName hline hname
      have hlat := scan_hasName hget h
      cases lines with
      | nil => exact ⟨[], [line], [], rfl, .inr ⟨line, [], rfl, hname, hpeel, by simp, by simp, by simp⟩, by simp⟩
      | cons next lines =>
        by_cases hnext : IsPeel next
        · rw [zipIdx_cons, foldlM_cons, bind_ok] at h
          obtain ⟨v, hread, h⟩ := h
          have hcan := (read_isPeel hread hnext).2
          refine ⟨[], [line, next], lines, rfl,
            .inr ⟨line, [next], rfl, hname, hpeel, by simpa using hnext, by simp, ?_⟩,
            fun other hoth => hlat other (.tail _ hoth)⟩
          intro after haf hcar
          cases lines with
          | nil => cases haf
          | cons first lines =>
            cases haf
            rw [zipIdx_cons, foldlM_cons, bind_ok] at h
            obtain ⟨w, hfirst, -⟩ := h
            rw [(read_isPeel hfirst hcar).1] at hcan
            cases hcan
        · exact ⟨[], [line], next :: lines, rfl,
            .inr ⟨line, [], rfl, hname, hpeel, by simp, by simp, by simpa using hnext⟩,
            fun other hoth => hlat other hoth⟩
    · obtain ⟨pre, gone, after, hpar⟩ := ih h
      refine ⟨line :: pre, gone, after, by rw [hpar.lines_eq, cons_append], hpar.shape, ?_⟩
      intro other hoth
      rcases mem_cons.mp hoth with rfl | hoth
      · exact hname
      · exact hpar.others other hoth

variable {width : Nat} {key : Bytes} {pre gone after : List Bytes}

lemma keptLines_others (h : ∀ line ∈ lines, ¬ HasName width key line) :
    keptLines width key false lines = lines := by
  induction lines with
  | nil => rfl
  | cons line lines ih =>
    have hline : ¬ ((line)[width]? = some space ∧ line.drop (width + 1) = key) := h line (.head _)
    rw [keptLines, Bool.and_false, if_neg (by decide), if_neg hline,
      ih fun other hoth => h other (.tail _ hoth)]

lemma keptLines_after (hpeel : ∀ line ∈ after.head?, ¬ IsPeel line)
    (h : ∀ line ∈ after, ¬ HasName width key line) : keptLines width key true after = after := by
  cases after with
  | nil => rfl
  | cons line lines =>
    have hcar : (ascii "^").isPrefixOf line = false := Bool.eq_false_iff.mpr (hpeel line rfl)
    have hline : ¬ ((line)[width]? = some space ∧ line.drop (width + 1) = key) := h line (.head _)
    rw [keptLines, hcar, Bool.false_and, if_neg (by decide), if_neg hline,
      keptLines_others fun other hoth => h other (.tail _ hoth)]

lemma keptLines_append (h : ∀ line ∈ pre, ¬ HasName width key line) (rest : List Bytes) :
    keptLines width key false (pre ++ rest) = pre ++ keptLines width key false rest := by
  induction pre with
  | nil => rfl
  | cons line pre ih =>
    have hline : ¬ ((line)[width]? = some space ∧ line.drop (width + 1) = key) := h line (.head _)
    rw [cons_append, keptLines, Bool.and_false, if_neg (by decide), if_neg hline,
      ih fun other hoth => h other (.tail _ hoth), cons_append]

lemma Parted.keptLines (h : Parted width key lines pre gone after) :
    keptLines width key false lines = pre ++ after := by
  have hbf : ∀ line ∈ pre, ¬ HasName width key line :=
    fun line hline => h.others line (mem_append_left _ hline)
  have haf : ∀ line ∈ after, ¬ HasName width key line :=
    fun line hline => h.others line (mem_append_right _ hline)
  rw [h.lines_eq, keptLines_append hbf]
  congr 1
  rcases h.shape with ⟨rfl, rfl⟩ | ⟨rec, peel, rfl, hname, hrec, hpee, hone, hend⟩
  · rfl
  have hskip : Proofs.keptLines width key false (rec :: (peel ++ after)) =
      Proofs.keptLines width key true (peel ++ after) := by
    rw [Proofs.keptLines, Bool.and_false, if_neg (by decide)]
    exact if_pos hname
  rw [cons_append, hskip]
  cases peel with
  | nil => exact keptLines_after hend haf
  | cons line peel =>
    obtain rfl : peel = [] := length_eq_zero_iff.mp (by simpa using hone)
    have hcar : (ascii "^").isPrefixOf line := hpee line (.head _)
    rw [cons_append, nil_append, Proofs.keptLines, hcar, Bool.true_and, if_pos rfl]
    exact keptLines_after hend haf

end Parted

section RecordLines

variable {width : Nat} {key line : Bytes} {lines rest pre gone after : List Bytes}

def terminated (line : Bytes) : Bytes := line ++ [newline]

lemma filter_isPeel (h : IsPeel line) : (some line).filter (ascii "^").isPrefixOf = some line := if_pos h

lemma filter_not_isPeel (h : ¬ IsPeel line) : (some line).filter (ascii "^").isPrefixOf = none := if_neg h

lemma nameLines_of_hasName (h : HasName width key line) :
    nameLines width key ((line :: rest).map terminated) =
      (line :: (rest.head?.filter (ascii "^").isPrefixOf).toList).map terminated := by
  have hrec : isRecordOf width key (terminated line) := isRecordOf_line.mpr h
  rw [map_cons, nameLines, if_pos hrec, map_cons]
  cases rest with
  | nil => rfl
  | cons next rest =>
    have hcar : (ascii "^").isPrefixOf (terminated next) = (ascii "^").isPrefixOf next := startsWith_line next
    rw [map_cons, head?_cons, head?_cons, Option.filter_some, Option.filter_some, hcar]
    split_ifs <;> rfl

lemma nameLines_of_not (h : ¬ HasName width key line) :
    nameLines width key ((line :: rest).map terminated) =
      nameLines width key (rest.map terminated) := by
  have hrec : ¬ isRecordOf width key (terminated line) := fun hrec => h (isRecordOf_line.mp hrec)
  rw [map_cons, nameLines, if_neg hrec]

lemma nameLines_append (h : ∀ line ∈ pre, ¬ HasName width key line) :
    nameLines width key ((pre ++ rest).map terminated) =
      nameLines width key (rest.map terminated) := by
  induction pre with
  | nil => rfl
  | cons line pre ih =>
    rw [cons_append, nameLines_of_not (h line mem_cons_self),
      ih fun other hoth => h other (.tail _ hoth)]

lemma Parted.nameLines_self (h : Parted width key lines pre gone after) :
    nameLines width key (lines.map terminated) = gone.map terminated := by
  rw [h.lines_eq, nameLines_append fun line hline => h.others line (mem_append_left _ hline)]
  rcases h.shape with ⟨rfl, rfl⟩ | ⟨rec, peel, rfl, hname, hrec, hpee, hone, hend⟩
  · rfl
  rw [cons_append, nameLines_of_hasName hname]
  cases peel with
  | nil =>
    cases after with
    | nil => rfl
    | cons first after =>
      rw [nil_append, head?_cons, filter_not_isPeel (hend first rfl)]
      rfl
  | cons line peel =>
    obtain rfl : peel = [] := length_eq_zero_iff.mp (by simpa using hone)
    rw [cons_append, head?_cons, filter_isPeel (hpee line mem_cons_self)]
    rfl

lemma Parted.nameLines_other {name other : RefName}
    (h : Parted width name.bytes lines pre gone after)
    (hne : other ≠ name) (hpeel : ∀ line ∈ lines, HasName width other.bytes line → ¬ IsPeel line) :
    nameLines width other.bytes ((pre ++ after).map terminated) =
      nameLines width other.bytes (lines.map terminated) := by
  rcases h.shape with ⟨rfl, rfl⟩ | ⟨rec, peel, rfl, hname, hrec, hpee, hone, hend⟩
  · rw [h.lines_eq]
    rfl
  have hgone : ∀ line ∈ rec :: peel, ¬ HasName width other.bytes line := by
    intro line hline hoth
    rcases mem_cons.mp hline with rfl | hline
    · exact hne (RefName.ext (hoth.2.symm.trans hname.2))
    · refine hpeel line ?_ hoth (hpee line hline)
      rw [h.lines_eq]
      exact mem_append_right _ (mem_append_left _ (.tail _ hline))
  rw [h.lines_eq]
  clear h hpeel
  induction pre with
  | nil => exact (nameLines_append hgone).symm
  | cons line pre ih =>
    by_cases hline : HasName width other.bytes line
    · rw [cons_append, cons_append, nameLines_of_hasName hline, nameLines_of_hasName hline]
      cases pre with
      | nil =>
        -- neither the removed record nor what follows its peeled line is a peeled line
        have hnew : after.head?.filter (ascii "^").isPrefixOf = none := by
          rw [Option.filter_eq_none_iff]
          exact hend
        rw [nil_append, nil_append, cons_append, head?_cons, filter_not_isPeel hrec, hnew]
      | cons next pre => rfl
    · rw [cons_append, cons_append, nameLines_of_not hline, nameLines_of_not hline, ih]

end RecordLines

/-- Removing a name from an accepted packed file gives an accepted file with the other records. Its
lines are those of the original without the lines of the name's record, and every other record has the
lines it had. -/
theorem packed_without_name {format : ObjectFormat} {path : Path} {bytes : Bytes} {packed : Packed} (name : RefName)
    (h : parsePacked format bytes path = .ok packed) :
    (∃ packed', parsePacked format (withoutRef format bytes name) path = .ok packed' ∧
      ∀ key, packed'.get key = if key = name.bytes then none else packed.get key) ∧
    (∃ before after, splitInclusive newline bytes =
        before ++ nameLines (format.digestLen * 2) name.bytes (splitInclusive newline bytes) ++ after ∧
      splitInclusive newline (withoutRef format bytes name) = before ++ after) ∧
    ∀ other : RefName, other ≠ name →
      nameLines (format.digestLen * 2) other.bytes (splitInclusive newline (withoutRef format bytes name)) =
        nameLines (format.digestLen * 2) other.bytes (splitInclusive newline bytes) := by
  refine ⟨parsePacked_withoutRef h, ?_⟩
  unfold parsePacked at h
  split_ifs at h with hnil hend
  · subst hnil
    exact ⟨⟨[], [], rfl, rfl⟩, fun _ _ => rfl⟩
  obtain ⟨scan, hscan, -⟩ := bind_ok.mp h
  have hbs : bytes = joinLines newline (bytes.dropLast.splitOn newline) :=
    (joinLines_splitOn (not_not.mp hend)).symm
  have hlines : ∀ line ∈ bytes.dropLast.splitOn newline, newline ∉ line :=
    fun _ hl => not_mem_of_mem_splitOn hl
  generalize bytes.dropLast.splitOn newline = lines at hscan hbs hlines
  have hcut : splitInclusive newline bytes = lines.map terminated := by
    rw [hbs]
    exact splitInclusive_joinLines hlines
  obtain ⟨before, gone, after, hpar⟩ := @parted_of_scan _ _ name _ _ _ _ hscan
  have hwit : withoutRef format bytes name = joinLines newline (before ++ after) := by
    rw [withoutRef, hcut, ← hpar.keptLines]
    exact congrArg flatten (withoutLines_eq false lines)
  have hkept : splitInclusive newline (withoutRef format bytes name) = (before ++ after).map terminated := by
    rw [hwit]
    refine splitInclusive_joinLines fun line hline => hlines line ?_
    rw [hpar.lines_eq]
    rcases mem_append.mp hline with hline | hline
    · exact mem_append_left _ hline
    · exact mem_append_right _ (mem_append_right _ hline)
  rw [hcut, hkept]
  refine ⟨⟨before.map terminated, after.map terminated, ?_, map_append⟩, fun other hne => ?_⟩
  · rw [hpar.nameLines_self, hpar.lines_eq, map_append, map_append, append_assoc]
  · exact hpar.nameLines_other hne (scan_peel hscan)

def twoRecords : Bytes :=
  ascii "# pack-refs with: peeled sorted\n" ++ List.replicate 40 49 ++ ascii " refs/heads/main\n^" ++ List.replicate 40 50 ++
    ascii "\n" ++ List.replicate 40 51 ++ ascii " refs/heads/next\n"

lemma packedBranch_valid : validRefName (ascii "refs/heads/main") := by
  decide +kernel

def packedBranch : RefName := ⟨ascii "refs/heads/main", packedBranch_valid⟩

theorem packed_without_name_sample : ∃ packed, parsePacked .sha1 twoRecords (ascii "packed-refs") = .ok packed ∧
    ∃ packed', parsePacked .sha1 (withoutRef .sha1 twoRecords packedBranch) (ascii "packed-refs") = .ok packed' ∧
      packed'.get (ascii "refs/heads/next") = packed.get (ascii "refs/heads/next") := by
  obtain ⟨packed, hpack⟩ := exists_ok (show (parsePacked .sha1 twoRecords (ascii "packed-refs")).isOk by decide +kernel)
  obtain ⟨⟨packed', hres, hget⟩, -⟩ := packed_without_name packedBranch hpack
  refine ⟨packed, hpack, packed', hres, ?_⟩
  rw [hget, if_neg (by decide +kernel)]

end Girt.Proofs
