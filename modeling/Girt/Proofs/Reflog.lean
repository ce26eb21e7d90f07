import Girt.Proofs.CommitFields
import Girt.Refs.Files.Reflog

/-!
# Appending to reflogs

What is written for an entry is one line, and it is read back as that entry.
-/

namespace Girt.Refs.Files
open ByteLib Pieces DecimalLib Proofs List

namespace ReflogEntry

variable {entry : ReflogEntry} {record : Bytes} {path : Path}

def person (entry : ReflogEntry) : Bytes :=
  entry.committer.name ++ 32 :: 60 :: (entry.committer.email ++ 62 :: dateText entry.committer)

def line (entry : ReflogEntry) : Bytes :=
  idText entry.old ++ 32 :: (idText entry.new ++ 32 :: (entry.person ++ 9 :: entry.message))

structure Accepted (entry : ReflogEntry) : Prop where
  format : entry.new.format = entry.old.format
  committer : entry.committer.validate = .ok ()
  tabs : 9 ∉ entry.committer.name ∧ 9 ∉ entry.committer.email
  message : ∀ b ∈ entry.message, b ≠ 0 ∧ b ≠ 13 ∧ b ≠ 10

lemma accepted_of_encode (h : entry.encode = .ok record) :
    entry.Accepted ∧ record = entry.line ++ [newline] := by
  obtain ⟨⟨⟩, hform, h⟩ := bind_ok.mp h
  obtain ⟨⟨⟩, hval, h⟩ := bind_ok.mp h
  obtain ⟨⟨⟩, htabs, hval⟩ := bind_ok.mp hval
  obtain ⟨⟨⟩, -, hval⟩ := bind_ok.mp hval
  obtain ⟨⟨⟩, hcom, htext⟩ := bind_ok.mp hval
  rw [requireFormat, reject_ok, not_not] at hform
  rw [reject_ok, Bool.not_eq_false, Signature.valid] at hcom
  simp only [reject_ok, not_or, contains_iff_mem, Bool.and_eq_true, decide_eq_true_eq, any_eq_true,
    beq_iff_eq,
    Bool.or_eq_true, not_exists, not_and] at htabs hcom htext
  refine ⟨⟨hform, validate_eq_ok.mpr ⟨hcom.1.1, hcom.1.2, hcom.2⟩, htabs, fun b hb => ?_⟩, ?_⟩
  · have hb := htext b hb
    exact ⟨hb.1.1, hb.1.2, hb.2⟩
  have htab : ascii "\t" = [9] := by decide
  have hbl : ascii " " = [32] := by decide
  cases h
  simp [line, person, encode_eq, htab, hbl]

lemma Accepted.person (h : entry.Accepted) {b : UInt8} (hb : b ∈ entry.person) :
    b ≠ 0 ∧ b ≠ 13 ∧ b ≠ 10 ∧ b ≠ 9 := by
  obtain ⟨hname, hema, -⟩ := validate_eq_ok.mp h.committer
  have hcom : ∀ {comp : Bytes}, Signature.validComponent comp → 9 ∉ comp → b ∈ comp →
      b ≠ 0 ∧ b ≠ 13 ∧ b ≠ 10 ∧ b ≠ 9 := by
    intro comp hval htab hb
    obtain ⟨hzero, hret, hnl, -⟩ := (validComponent_iff.mp hval).2.1 b hb
    exact ⟨hzero, hret, hnl, ne_of_mem_of_not_mem hb htab⟩
  simp only [ReflogEntry.person, mem_append, mem_cons] at hb
  rcases hb with hb | rfl | rfl | hb | rfl | hb
  · exact hcom hname h.tabs.1 hb
  · decide
  · decide
  · exact hcom hema h.tabs.2 hb
  · decide
  · have hle := le_of_mem_dateText h.committer hb
    refine ⟨?_, ?_, ?_, ?_⟩ <;> rintro rfl <;> exact absurd hle (by decide)

lemma Accepted.newline_notMem (h : entry.Accepted) : newline ∉ entry.line := by
  have hid : ∀ id : ObjectId, newline ∉ idText id :=
    fun id hmem => absurd (idText_range hmem).1 (by decide)
  simp only [line, mem_append, mem_cons, not_or]
  exact ⟨hid _, by decide, hid _, by decide, fun hb => (h.person hb).2.2.1 rfl, by decide,
    fun hb => (h.message _ hb).2.2 rfl⟩

lemma framed_dateText {sig : Signature} (h : sig.validate = .ok ()) : framed (dateText sig) := by
  obtain ⟨pre, num, htext, hbf, -, hdig⟩ := toString_parts sig.seconds.toInt
  obtain ⟨sign, ds, hzone, hsign, hfour, hds, -⟩ := zoneText_parts (offset_bounds h).1 (offset_bounds h).2
  have hcut : splitOnce (trimAsciiStart (dateText sig)) space =
      some (ascii (toString sig.seconds.toInt), zoneText sig.offsetMinutes) := by
    refine splitOnce_eq_some.mpr ⟨trimAsciiStart_dateText sig, ?_⟩
    rw [htext, mem_append, not_or]
    refine ⟨?_, fun hmem => absurd (hdig _ hmem) (by decide)⟩
    rcases hbf with rfl | rfl | rfl <;> decide
  have hhead : (dateText sig).head?.any Signature.isAsciiWhitespace := by
    rfl
  rw [framed, hhead, hcut, hzone]
  rcases hsign with rfl | rfl <;> simp [hfour, all_eq_true.mpr hds]

lemma parseId_idText {id : ObjectId} {fmt : ObjectFormat} (h : id.format = fmt) :
    parseId fmt (idText id) path = .ok id := by
  subst h
  rw [parseId, ObjectId.fromHex, if_neg (not_not.mpr (idText_length id)), hexBytes_idText]

lemma Accepted.parseLine (h : entry.Accepted) :
    parseLine entry.old.format path entry.line = .ok entry := by
  have hold : (idText entry.old).length = entry.old.format.digestLen * 2 := idText_length _
  have hnew : (idText entry.new).length = entry.old.format.digestLen * 2 := by rw [idText_length, h.format]
  have hrest : entry.line.drop (entry.old.format.digestLen * 2 + 1) =
      idText entry.new ++ 32 :: (entry.person ++ 9 :: entry.message) := by
    simp [line, ← hold]
  have haf : entry.line.drop (2 * (entry.old.format.digestLen * 2) + 2) = entry.person ++
      9 :: entry.message := by
    have hsum : 2 * (entry.old.format.digestLen * 2) + 2 =
        entry.old.format.digestLen * 2 + 1 + ((idText entry.new).length + 1) := by omega
    rw [hsum, ← drop_drop, hrest]
    simp
  have hfirst : entry.line[entry.old.format.digestLen * 2]? = some space := by
    simp [line, ← hold, space]
  have hsec : entry.line[2 * (entry.old.format.digestLen * 2) + 1]? = some space := by
    have hget := congrArg (fun rest => rest[(idText entry.new).length]?) hrest
    simp only [getElem?_drop, getElem?_append_right le_rfl, Nat.sub_self, getElem?_cons_zero] at hget
    rw [hnew, ← Nat.add_right_comm, ← two_mul] at hget
    exact hget
  have hcut : splitOnce (entry.person ++ 9 :: entry.message) 9 = some (entry.person, entry.message) :=
    splitOnce_eq_some.mpr ⟨rfl, fun hb => (h.person hb).2.2.2 rfl⟩
  have hcle : ¬(entry.person.contains 0 ∨ entry.person.contains 13 ∨
      entry.message.any (fun b => b == 0 || b == 13)) := by
    simp only [contains_iff_mem, any_eq_true, Bool.or_eq_true, beq_iff_eq, not_or, not_exists, not_and]
    exact ⟨fun hb => (h.person hb).1 rfl, fun hb => (h.person hb).2.1 rfl,
      fun b hb => ⟨(h.message b hb).1, (h.message b hb).2.1⟩⟩
  have htake : entry.line.take (entry.old.format.digestLen * 2) = idText entry.old := by
    rw [line, ← hold, take_left]
  have hnext : (entry.line.drop (entry.old.format.digestLen * 2 + 1)).take (entry.old.format.digestLen * 2) =
      idText entry.new := by
    rw [hrest, ← hnew, take_left]
  have hper : IdentityRef.parse entry.person =
      .ok ⟨entry.committer.name, entry.committer.email, dateText entry.committer⟩ :=
      parse_identity h.committer
  simp only [ReflogEntry.parseLine, hfirst, hsec, htake, hnext, haf, hcut, parseId_idText rfl,
    parseId_idText h.format, Option.getD_some, hper, wrapError, framed_dateText h.committer,
    signature_identity h.committer, reject, if_neg hcle, ne_eq, not_true, or_self, if_false, bind,
    Except.bind,
    pure, Except.pure, Bool.true_eq_false]

section Append

variable {fmt : ObjectFormat} {bs line : Bytes} {entries : List ReflogEntry}
  (h : parse fmt bs path = .ok entries)
include h

lemma parse_cases :
    (bs = [] ∧ entries = []) ∨ ∃ init, bs = init ++ [newline] ∧
      (init.splitOn newline).mapM (ReflogEntry.parseLine fmt path) = .ok entries := by
  rw [parse] at h
  split at h
  · rename_i hnil
    cases h
    exact .inl ⟨hnil, rfl⟩
  split at h
  · rename_i hlast
    obtain ⟨init, rfl⟩ := getLast?_eq_some_iff.mp hlast
    rw [dropLast_concat] at h
    exact .inr ⟨init, rfl, h⟩
  · cases h

lemma parse_append (hline : newline ∉ line)
    (hen : ReflogEntry.parseLine fmt path line = .ok entry) :
    parse fmt (bs ++ (line ++ [newline])) path = .ok (entries ++ [entry]) := by
  have hone : [line].mapM (ReflogEntry.parseLine fmt path) = .ok [entry] := by
    simp [hen, bind, Except.bind, pure, Except.pure]
  rw [parse, if_neg (by simp), if_pos (by simp), ← append_assoc, dropLast_concat]
  rcases parse_cases h with ⟨rfl, rfl⟩ | ⟨init, rfl, hinit⟩
  · rw [nil_append, splitOn_eq_singleton hline, hone, nil_append]
  · rw [append_assoc, singleton_append, splitOn_append_cons_self, splitOn_eq_singleton hline,
      mapM_append, hinit]
    simp only [hone, bind, Except.bind, pure, Except.pure]

end Append

end ReflogEntry

/-- A record that the writer accepts is one line. Appended to a log that can be read, it is read as one
entry more, the one that was written. -/
theorem reflog_append (refs : References) (store : Store) (name : RefName) (entry : ReflogEntry) (record : Bytes)
    (entries : List ReflogEntry) (hrec : entry.encode = .ok record)
    (hlog : ReflogEntry.parse entry.old.format ((store.logs name).getD []) (refs.reflogPath name) = .ok entries) :
    (∃ line, record = line ++ [newline] ∧ newline ∉ line) ∧ checkAppendTail refs store name = .ok () ∧
      ReflogEntry.parse entry.old.format ((((Change.appendLog name record).run store).logs name).getD [])
        (refs.reflogPath name) = .ok (entries ++ [entry]) := by
  obtain ⟨hacc, rfl⟩ := ReflogEntry.accepted_of_encode hrec
  refine ⟨⟨_, rfl, hacc.newline_notMem⟩, ?_, ?_⟩
  · have htail : ((store.logs name).bind getLast?).any (fun last => last ≠ newline) = false := by
      cases hlogs : store.logs name with
      | none => rfl
      | some bytes =>
        rw [hlogs, Option.getD_some] at hlog
        rcases ReflogEntry.parse_cases hlog with ⟨rfl, -⟩ | ⟨init, rfl, -⟩
        · rfl
        · simp
    rw [checkAppendTail, reject_ok, htail]
    decide
  · simp only [Change.run, Function.update_self, Option.getD_some]
    exact ReflogEntry.parse_append hlog hacc.newline_notMem hacc.parseLine

def creation : ReflogEntry :=
  ⟨.null .sha1, .null .sha1, ⟨ascii "A", ascii "a@example.com", 60, -90⟩, ascii "branch:\tcreated"⟩

theorem reflog_append_creation : ∃ record, creation.encode = .ok record ∧
    ReflogEntry.parse .sha1 (record ++ record) (ascii "r/logs/HEAD") = .ok [creation, creation] := by
  obtain ⟨record, hrec⟩ : ∃ record, creation.encode = .ok record := ⟨_, rfl⟩
  have hlog : ReflogEntry.parse .sha1 record (ascii "r/logs/HEAD") = .ok [creation] := by
    cases hrec
    decide +kernel
  have happend := (reflog_append ⟨.sha1, ascii "r", ascii "r"⟩ ⟨none, fun _ => none, fun _ => some record⟩
    ⟨ascii "HEAD", by decide +kernel⟩ creation record [creation] hrec hlog).2.2
  simp only [Change.run, Function.update_self] at happend
  exact ⟨record, hrec, happend⟩

end Girt.Refs.Files
