import Girt.Commit
import Girt.Proofs.FilesPrepare

/-!
# The graph records of a commit

The records of fixed width are lines, so that both parsers read the same.
-/

namespace Girt
open ByteLib Pieces DecimalLib Refs.Files Proofs List

section Records

variable {fmt : ObjectFormat} {id : ObjectId} {start text rest : Bytes}

lemma stripPrefixOf_eq_some : stripPrefixOf start rest = some text ↔ rest = start ++ text := by
  unfold stripPrefixOf
  constructor
  · intro h
    split at h
    · rename_i hstarts
      obtain ⟨tail, rfl⟩ := isPrefixOf_iff_prefix.mp hstarts
      cases h
      rw [drop_left]
    · cases h
  · rintro rfl
    rw [if_pos (List.isPrefixOf_iff_prefix.mpr (prefix_append _ _)), drop_left]

lemma newline_notMem_of_hexBytes {bs : Bytes} (h : hexBytes text = some bs)
    (heven : 2 ∣ text.length) : 10 ∉ text := by
  fun_induction hexBytes text generalizing bs with
  | case1 high low rest ih =>
    obtain ⟨a, ha, h⟩ := Option.bind_eq_some_iff.mp h
    obtain ⟨b, hb, h⟩ := Option.bind_eq_some_iff.mp h
    obtain ⟨tail, htail, -⟩ := Option.bind_eq_some_iff.mp h
    have hrest := ih htail (by simpa using heven)
    -- a newline is not a hexadecimal digit
    rintro (_ | ⟨_, _ | ⟨_, hmem⟩⟩)
    · cases ha
    · cases hb
    · exact hrest hmem
  | case2 text hsh =>
    rcases text with _ | ⟨first, _ | ⟨second, text⟩⟩
    · simp
    · simp at heven
    · exact absurd rfl (hsh first second text)

lemma commitId_eq_ok (h : commitId fmt text = .ok id) :
    text.length = fmt.digestLen * 2 ∧ 10 ∉ text := by
  unfold commitId at h
  split at h
  · cases h
  rename_i hlen
  rw [not_not] at hlen
  refine ⟨hlen, ?_⟩
  split at h
  · cases h
  · rename_i hbs
    obtain ⟨bs, hhex, -⟩ := Option.bind_eq_some_iff.mp hbs
    exact newline_notMem_of_hexBytes hhex (by rw [hlen]; exact Nat.dvd_mul_left _ _)

lemma commitId_idText (hform : id.format = fmt) : commitId fmt (idText id) = .ok id := by
  subst hform
  rw [commitId, if_neg (not_not.mpr (idText_length id)), hexBytes_idText]

lemma fixedRecord_eq_some (h : fixedRecord fmt start rest = some id) :
    ∃ text, rest = start ++ text ++ 10 :: rest.drop (start.length + fmt.digestLen * 2 + 1) ∧
      text.length = fmt.digestLen * 2 ∧ 10 ∉ text ∧ commitId fmt text = .ok id := by
  obtain ⟨tail, hstream, h⟩ := Option.bind_eq_some_iff.mp h
  split at h
  · cases h
  rename_i hnl
  rw [not_not] at hnl
  cases hid : commitId fmt (tail.take (fmt.digestLen * 2)) with
  | error error =>
    rw [hid] at h
    cases h
  | ok found =>
    rw [hid] at h
    cases h
    obtain ⟨hlen, hmem⟩ := commitId_eq_ok hid
    refine ⟨tail.take (fmt.digestLen * 2), ?_, hlen, hmem, hid⟩
    obtain ⟨hlt, hget⟩ := List.getElem?_eq_some_iff.mp hnl
    have htail : tail = tail.take (fmt.digestLen * 2) ++ 10 :: tail.drop (fmt.digestLen * 2 + 1) := by
      rw [← hget, getElem_cons_drop, take_append_drop]
    rw [stripPrefixOf_eq_some.mp hstream, append_assoc, ← drop_drop, ← drop_drop, drop_left,
      drop_drop, ← htail]

lemma fixedRecord_written (hform : id.format = fmt) (rest : Bytes) :
    fixedRecord fmt start (start ++ idText id ++ 10 :: rest) = some id := by
  have hlen : (idText id).length = fmt.digestLen * 2 := by rw [idText_length, hform]
  rw [fixedRecord, append_assoc, stripPrefixOf_eq_some.mpr rfl, Option.bind_some, if_neg, ← hlen,
    take_left, commitId_idText hform]
  · rfl
  · rw [not_not, ← hlen]
    simp

lemma requiredId_line (hid : commitId fmt text = .ok id) :
    requiredId fmt start (start ++ text ++ [10]) = .ok id := by
  have hlast : (start ++ text ++ [10]).getLast? = some 10 := by simp
  rw [requiredId, if_pos hlast, dropLast_concat, stripPrefixOf_eq_some.mpr rfl]
  exact hid

end Records

section Parsers

variable {fmt : ObjectFormat} {rest rest' payload : Bytes} {ids : List ObjectId}

lemma splitInclusive_cons (byte : UInt8) (rest : Bytes) :
    ∃ line lines, splitInclusive 10 (byte :: rest) = line :: lines ∧ line <+: byte :: rest := by
  induction rest generalizing byte with
  | nil =>
    simp [splitInclusive]
  | cons next rest ih =>
    obtain ⟨line, lines, hcut, hstarts⟩ := ih next
    by_cases hbyte : byte = 10
    · refine ⟨[byte], splitInclusive 10 (next :: rest), ?_, ⟨next :: rest, rfl⟩⟩
      rw [splitInclusive, if_pos hbyte]
    · refine ⟨byte :: line, lines, ?_, cons_prefix_cons.mpr ⟨rfl, hstarts⟩⟩
      rw [splitInclusive, if_neg hbyte, hcut]

lemma splitInclusive_record {start : Bytes} {id : ObjectId} (hst : 10 ∉ start)
    (h : fixedRecord fmt start rest = some id) :
    ∃ line, splitInclusive 10 rest =
      line :: splitInclusive 10 (rest.drop (start.length + fmt.digestLen * 2 + 1)) ∧
      line.length = start.length + fmt.digestLen * 2 + 1 ∧ start <+: line ∧
      requiredId fmt start line = .ok id := by
  obtain ⟨text, hrest, hlen, hmem, hid⟩ := fixedRecord_eq_some h
  refine ⟨start ++ text ++ [10], ?_, by simp [hlen, Nat.add_assoc], ⟨text ++ [10], (append_assoc _ _ _).symm⟩,
    requiredId_line hid⟩
  conv_lhs => rw [hrest]
  refine splitInclusive_append_cons ?_ _
  simp [hst, hmem]

lemma parentLines_of_fixed (h : fixedParents fmt rest = some (ids, rest')) :
    parentLines fmt rest.length (splitInclusive 10 rest) = .ok (ids, splitInclusive 10 rest') := by
  fun_induction fixedParents fmt rest generalizing ids with
  | case1 => cases h
  | case2 rest hmore id hrec ih =>
    obtain ⟨⟨ids', tail⟩, hrest, htail⟩ := Option.map_eq_some_iff.mp h
    cases htail
    obtain ⟨line, hcut, hlen, hst, hid⟩ := splitInclusive_record (by decide) hrec
    have hwd : parentStart.length + fmt.digestLen * 2 + 1 = fmt.digestLen * 2 + 8 := by
      have : parentStart.length = 7 := by decide
      omega
    rw [hwd] at hcut hlen
    rw [hcut, parentLines, if_pos ⟨hmore.1, isPrefixOf_iff_prefix.mpr hst⟩, hid, hlen, ← length_drop]
    exact bind_ok.mpr ⟨id, rfl, bind_ok.mpr ⟨_, ih hrest, rfl⟩⟩
  | case3 rest hless =>
    cases h
    cases rest' with
    | nil => rfl
    | cons byte rest =>
      obtain ⟨line, lines, hcut, hstarts⟩ := splitInclusive_cons byte rest
      rw [hcut, parentLines, if_neg]
      rintro ⟨hlen, hline⟩
      refine hless ⟨hlen, isPrefixOf_iff_prefix.mpr ?_⟩
      exact (List.isPrefixOf_iff_prefix.mp hline).trans hstarts

lemma generalGraph_of_fixed {graph : ObjectId × List ObjectId}
    (h : fixedWidthGraph fmt payload = some graph) : generalGraph fmt payload = .ok graph := by
  obtain ⟨tree, htree, h⟩ := Option.bind_eq_some_iff.mp h
  obtain ⟨⟨pars, rest⟩, hpas, h⟩ := Option.bind_eq_some_iff.mp h
  simp only at h
  split at h
  · cases h
  rename_i hrest
  cases h
  obtain ⟨line, hcut, hlen, -, hid⟩ := splitInclusive_record (by decide) htree
  have hwd : treeStart.length + fmt.digestLen * 2 + 1 = fmt.digestLen * 2 + 6 := by
    have : treeStart.length = 5 := by decide
    omega
  rw [hwd] at hcut hlen
  have hlines := parentLines_of_fixed hpas
  obtain ⟨byte, tail, rfl⟩ := exists_cons_of_ne_nil hrest
  obtain ⟨first, lines, hfirst, -⟩ := splitInclusive_cons byte tail
  rw [length_drop] at hlines
  simp only [generalGraph, hcut, hlen]
  refine bind_ok.mpr ⟨tree, hid, bind_ok.mpr ⟨_, hlines, bind_ok.mpr ⟨(), ?_, rfl⟩⟩⟩
  rw [reject_ok, hfirst]
  exact cons_ne_nil _ _

theorem parseGraph_eq_generalGraph (fmt : ObjectFormat) (payload : Bytes) :
    parseGraph fmt payload = generalGraph fmt payload := by
  unfold parseGraph
  split
  · rename_i hfix
    exact (generalGraph_of_fixed hfix).symm
  · rfl

lemma fixedParents_written {pars : List ObjectId} (hform : ∀ par ∈ pars, par.format = fmt)
    {tail : Bytes} (htail : parentStart.isPrefixOf tail = false) :
    fixedParents fmt (pars.flatMap (parentStart ++ idText · ++ [10]) ++ tail) =
      some (pars, tail) := by
  induction pars with
  | nil =>
    rw [flatMap_nil, nil_append, fixedParents, dif_neg]
    rw [htail]
    simp
  | cons par pars ih =>
    have hlen : (idText par).length = fmt.digestLen * 2 := by
      rw [idText_length, hform par mem_cons_self]
    have hst : parentStart.length = 7 := by decide
    have hbs : (par :: pars).flatMap (parentStart ++ idText · ++ [10]) ++ tail =
        parentStart ++ idText par ++
          10 :: (pars.flatMap (parentStart ++ idText · ++ [10]) ++ tail) := by
      simp
    have hdrop : (parentStart ++ idText par ++
        10 :: (pars.flatMap (parentStart ++ idText · ++ [10]) ++ tail)).drop
          (fmt.digestLen * 2 + 8) =
        pars.flatMap (parentStart ++ idText · ++ [10]) ++ tail := by
      rw [append_cons]
      exact drop_left' (by simp [hlen, hst]; omega)
    rw [hbs, fixedParents, dif_pos, fixedRecord_written (hform par mem_cons_self), hdrop]
    · rw [ih fun other hoth => hform other (mem_cons_of_mem _ hoth)]
      rfl
    · refine ⟨by simp [hlen, hst]; omega, isPrefixOf_iff_prefix.mpr ?_⟩
      exact prefix_append _ _

end Parsers

end Girt
