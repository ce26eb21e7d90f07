import Girt.Proofs.CommitFields

/-!
# Signed commits

The signature is the last header, and without it the payload is the bytes that were signed.
-/

namespace Girt
open ByteLib Pieces DecimalLib Refs.Files Proofs List
open CommitHeader (encode lines)
open CommitHeaderRef (ofRaw unfoldedValue)
open CommitPayload (ofBytes scan)

section View

lemma splitInclusive_lines {lines : List Bytes} (h : ∀ line ∈ lines, HeaderLine line)
    (message : Bytes) :
    splitInclusive 10 (joinLines 10 lines ++ 10 :: message) =
      lines.map (· ++ [10]) ++ [10] :: splitInclusive 10 message := by
  induction lines with
  | nil => simp [joinLines, splitInclusive]
  | cons line lines ih =>
    have hjoin : joinLines 10 (line :: lines) ++ 10 :: message =
        line ++ 10 :: (joinLines 10 lines ++ 10 :: message) := by simp [joinLines]
    rw [hjoin, splitInclusive_append_cons (h line mem_cons_self).newline,
      ih fun other hoth => h other (.tail _ hoth)]
    simp

lemma scan_continuations (heads : List Bytes) (raw : Bytes) (rest more : List Bytes) :
    scan (heads ++ [raw]) ((rest.map (32 :: ·)).map (· ++ [10]) ++ more) =
      scan (heads ++ [raw ++ joinLines 10 (rest.map (32 :: ·))]) more := by
  induction rest generalizing raw with
  | nil => simp [joinLines]
  | cons piece rest ih =>
    have hadd : addLine (heads ++ [raw]) (32 :: piece ++ [10]) = heads ++ [raw ++ (32 :: piece ++ [10])] := by
      simp [addLine]
    rw [map_cons, map_cons, cons_append, scan, if_neg (by simp), hadd, ih]
    simp [joinLines]

lemma scan_block {first : Bytes} (hne : first ≠ []) (hsp : first.head? ≠ some 32)
    (heads : List Bytes) (rest more : List Bytes) :
    scan heads ((first :: rest.map (32 :: ·)).map (· ++ [10]) ++ more) =
      scan (heads ++ [joinLines 10 (first :: rest.map (32 :: ·))]) more := by
  have hadd : addLine heads (first ++ [10]) = heads ++ [first ++ [10]] := by
    rw [addLine, if_neg]
    rintro ⟨hhead, -⟩
    rw [head?_append_of_ne_nil _ hne] at hhead
    exact hsp hhead
  have hline : first ++ [10] ≠ [10] := by simpa using hne
  rw [map_cons, cons_append, scan, if_neg hline, hadd, scan_continuations]
  simp [joinLines]

def CommitFields.spans (flds : CommitFields) : List Bytes :=
  (treeLine flds ++ [10]) :: (flds.parents.map (fun parent => parentLine parent ++ [10]) ++
    [ascii "author" ++ flds.author.encode ++ [10], ascii "committer" ++ flds.committer.encode ++ [10]] ++
    flds.extraHeaders.map CommitHeader.encode)

lemma flatten_spans (flds : CommitFields) : flds.spans.flatten = flds.headerLines := by
  have htree : treeStart = ascii "tree" ++ [32] := by decide
  have hpar : parentStart = ascii "parent" ++ [32] := by decide
  simp [CommitFields.spans, CommitFields.headerLines, treeLine, parentLine, htree, hpar, flatMap_def]

variable {flds : CommitFields}

lemma scan_line {line : Bytes} (hne : line ≠ []) (hsp : line.head? ≠ some 32)
    (heads more : List Bytes) :
    scan heads ((line ++ [10]) :: more) = scan (heads ++ [line ++ [10]]) more := by
  have hblock := scan_block hne hsp heads [] more
  simpa [joinLines] using hblock

lemma scan_parents (pars : List ObjectId) (heads more : List Bytes) :
    scan heads ((pars.map parentLine).map (· ++ [10]) ++ more) =
      scan (heads ++ pars.map (parentLine · ++ [10])) more := by
  induction pars generalizing heads with
  | nil => simp
  | cons par pars ih =>
    have hne : parentLine par ≠ [] := by simp [parentLine]
    have hhead : (parentLine par).head? ≠ some 32 := by
      rw [parentLine, head?_append_of_ne_nil _ (by decide)]
      decide
    rw [map_cons, map_cons, cons_append, scan_line hne hhead, ih]
    simp

lemma scan_headers {extra : List CommitHeader} (h : ∀ hdr ∈ extra, hdr.validate = .ok ())
    (heads more : List Bytes) :
    scan heads ((extra.flatMap lines).map (· ++ [10]) ++ more) =
      scan (heads ++ extra.map encode) more := by
  induction extra generalizing heads with
  | nil => simp
  | cons hdr extra ih =>
    obtain ⟨hne, hname, -⟩ := header_valid (h hdr (.head _))
    obtain ⟨first, rest, hcut⟩ := exists_cons_of_ne_nil (splitOn_ne_nil 10 hdr.value)
    have hlines : hdr.lines = (hdr.name ++ 32 :: first) :: rest.map (32 :: ·) := by
      simp only [lines, hcut]
    have hhead : (hdr.name ++ 32 :: first).head? ≠ some 32 := by
      rw [head?_append_of_ne_nil _ hne]
      intro hsp
      exact absurd (hname 32 (mem_of_head? hsp)).1 (by decide)
    rw [flatMap_cons, map_append, append_assoc, hlines, scan_block (by simp) hhead, ← hlines,
      ← encode_eq_joinLines, ih fun other hoth => h other (.tail _ hoth)]
    simp

lemma ofBytes_encode (h : flds.validate = .ok ()) :
    ofBytes flds.encode = ⟨flds.spans, 10 :: flds.message⟩ := by
  obtain ⟨-, -, -, hhea⟩ := fields_valid h
  have htree : (treeLine flds).head? ≠ some 32 := by
    rw [treeLine, head?_append_of_ne_nil _ (by decide)]
    decide
  have hau : (ascii "author" ++ flds.author.encode).head? ≠ some 32 := by
    rw [head?_append_of_ne_nil _ (by decide)]
    decide
  have hcom : (ascii "committer" ++ flds.committer.encode).head? ≠ some 32 := by
    rw [head?_append_of_ne_nil _ (by decide)]
    decide
  have hlines : flds.lines.map (· ++ [10]) ++ [10] :: splitInclusive 10 flds.message =
      (treeLine flds ++ [10]) :: ((flds.parents.map parentLine).map (· ++ [10]) ++
        (ascii "author" ++ flds.author.encode ++ [10]) :: (ascii "committer" ++ flds.committer.encode ++ [10]) ::
        ((flds.extraHeaders.flatMap lines).map (· ++ [10]) ++
          [10] :: splitInclusive 10 flds.message)) := by
    simp [CommitFields.lines]
  rw [ofBytes, CommitFields.encode, headerLines_eq, splitInclusive_lines fun line => headerLine_of_mem h,
    hlines, scan_line (by simp [treeLine]) htree, scan_parents,
    scan_line (append_ne_nil_of_left_ne_nil (by decide) _) hau,
    scan_line (append_ne_nil_of_left_ne_nil (by decide) _) hcom, scan_headers hhea, scan, if_pos rfl,
    flatten_cons, flatten_splitInclusive]
  simp [CommitFields.spans]

end View

section Signature

lemma ofRaw_named {name value : Bytes} (hnl : 10 ∉ name) (hsp : 32 ∉ name) :
    ofRaw (name ++ 32 :: value ++ [10]) = ⟨true, name, value⟩ := by
  have hline : withoutFinalNewline (name ++ 32 :: value ++ [10]) = name ++ 32 :: value := by
    rw [withoutFinalNewline, if_pos getLast?_concat, dropLast_concat]
  have hfirst : (name ++ 32 :: value).takeWhile (· ≠ 10) = name ++ 32 :: value.takeWhile (· ≠ 10) := by
    rw [takeWhile_append_of_pos]
    · simp
    · intro byte hbyte
      simpa using fun h : byte = 10 => hnl (h ▸ hbyte)
  have hfind : (name ++ 32 :: value.takeWhile (· ≠ 10)).findIdx? (· == 32) = some name.length := by
    rw [findIdx?_append, findIdx?_eq_none_iff.mpr]
    · simp [findIdx?_cons]
    · intro byte hbyte
      simpa using fun h : byte = 32 => hsp (h ▸ hbyte)
  rw [ofRaw]
  simp only [hline, hfirst, hfind]
  simp

lemma ofRaw_encode {hdr : CommitHeader} (h : hdr.validate = .ok ()) :
    ofRaw hdr.encode = ⟨true, hdr.name, [10, 32].intercalate (hdr.value.splitOn 10)⟩ := by
  obtain ⟨-, hname, -⟩ := header_valid h
  exact ofRaw_named (fun hmem => absurd (hname 10 hmem).1 (by decide)) fun hmem =>
    absurd (hname 32 hmem).1 (by decide)

lemma unfoldedValue_folded (separator : Bool) (name value : Bytes) :
    unfoldedValue ⟨separator, name, [10, 32].intercalate (value.splitOn 10)⟩ = value := by
  obtain ⟨first, rest, hcut⟩ := exists_cons_of_ne_nil (splitOn_ne_nil 10 value)
  have hpc : ∀ piece ∈ first :: rest, 10 ∉ piece := fun piece hmem =>
    not_mem_of_mem_splitOn (hcut ▸ hmem)
  have hfol : [10, 32].intercalate (first :: rest) = [10].intercalate (first :: rest.map (32 :: ·)) := by
    have hjoin := @joinLines_eq_intercalate UInt8 10 (first :: rest.map (32 :: ·)) (cons_ne_nil _ _)
    exact append_cancel_right ((intercalate_space first rest).trans hjoin)
  have hlines : ∀ line ∈ first :: rest.map (32 :: ·), 10 ∉ line := by
    intro line hline
    rcases mem_cons.mp hline with rfl | hline
    · exact hpc line (.head _)
    · obtain ⟨piece, hmem, rfl⟩ := mem_map.mp hline
      rw [mem_cons, not_or]
      exact ⟨by decide, hpc piece (.tail _ hmem)⟩
  have hunf : (rest.map (32 :: ·)).flatMap (10 :: unfoldLine ·) = rest.flatMap (10 :: ·) := by
    simp [flatMap_map, unfoldLine]
  rw [hcut, hfol, unfoldedValue]
  simp only [splitOn_intercalate 10 hlines (cons_ne_nil _ _)]
  rw [hunf, ← intercalate_newline, ← hcut, intercalate_splitOn]

variable {flds : CommitFields}

lemma signatureName_isSignatureName (fmt : ObjectFormat) : isSignatureName (signatureName fmt) := by
  cases fmt <;> decide

lemma validate_withSignature {sig : Bytes} (h : (flds.withSignature sig).validate = .ok ()) :
    flds.validate = .ok () := by
  obtain ⟨hpas, hau, hcom, hhea⟩ := fields_valid h
  refine bind_ok.mpr ⟨(), forM_eq_ok.mpr fun par hpar => ?_, bind_ok.mpr ⟨(), hau,
    bind_ok.mpr ⟨(), hcom, forM_eq_ok.mpr fun hdr hhd => ?_⟩⟩⟩
  · rw [requireCommitFormat, reject_ok, not_not]
    exact hpas par hpar
  · exact hhea hdr (mem_append_left _ hhd)

lemma spans_not_signature (h : flds.validate = .ok ())
    (hnone : flds.extraHeaders.any (isSignatureName ·.name) = false) {raw : Bytes}
    (hraw : raw ∈ flds.spans) : isSignatureHeader raw = false := by
  obtain ⟨-, -, -, hhea⟩ := fields_valid h
  have hnam : ∀ {name val : Bytes}, 10 ∉ name → 32 ∉ name → isSignatureName name = false →
      isSignatureHeader (name ++ 32 :: val ++ [10]) = false := by
    intro name val hnl hsp hname
    rw [isSignatureHeader]
    simp only [ofRaw_named hnl hsp, hname, Bool.and_false]
  simp only [CommitFields.spans, mem_cons, mem_append, mem_map, not_mem_nil, or_false] at hraw
  rcases hraw with rfl | (⟨par, -, rfl⟩ | rfl | rfl) | ⟨hdr, hhd, rfl⟩
  · exact hnam (by decide) (by decide) (by decide)
  · exact hnam (by decide) (by decide) (by decide)
  · exact hnam (by decide) (by decide) (by decide)
  · exact hnam (by decide) (by decide) (by decide)
  · have hname := (any_eq_false.mp hnone) hdr hhd
    rw [isSignatureHeader]
    simp [ofRaw_encode (hhea hdr hhd), Bool.eq_false_iff.mpr hname]

lemma signaturePart_of_not {raw : Bytes} (h : isSignatureHeader raw = false) (fmt : ObjectFormat) :
    isNativeSignature fmt raw = false ∧ signaturePart fmt raw = [] := by
  have hnat : isNativeSignature fmt raw = false := by
    rw [isSignatureHeader] at h
    rw [isNativeSignature]
    simp only [Bool.and_eq_false_iff] at h ⊢
    refine h.imp_right fun hname => ?_
    by_contra hsame
    rw [Bool.not_eq_false, beq_iff_eq] at hsame
    rw [hsame, signatureName_isSignatureName] at hname
    cases hname
  refine ⟨hnat, ?_⟩
  rw [isNativeSignature] at hnat
  rw [signaturePart]
  simp [hnat]

lemma date_of_signature {identity : IdentityRef} {signature : Signature}
    (h : identity.signature = .ok signature) :
    identity.date.toOption.map Prod.fst = some signature.seconds := by
  obtain ⟨date, hdate, rfl⟩ := map_ok.mp h
  rw [hdate]
  rfl

lemma committedAt_built (h : flds.validate = .ok ()) (graph : ObjectId × List ObjectId) :
    (Commit.ofGraph flds.encode graph).committedAt = some flds.committer.seconds := by
  have hper := (built_person h graph).2
  rw [Commit.committedAt]
  unfold requiredPerson at hper
  split at hper
  · cases hper
  · cases hper
  · rename_i ident hide
    rw [hide]
    exact date_of_signature hper

lemma spans_withSignature (flds : CommitFields) (sig : Bytes) :
    (flds.withSignature sig).spans = flds.spans ++
      [encode ⟨signatureName flds.tree.format, withoutFinalNewline sig⟩] := by
  simp [CommitFields.spans, CommitFields.withSignature, treeLine]

/-- The values that the signature headers of a commit unfold to. -/
def Commit.signatures (commit : Commit) : List Bytes :=
  ((CommitPayload.ofBytes commit.payload).headers.filter (isNativeSignature commit.tree.format)).map
    fun raw => (CommitHeaderRef.ofRaw raw).unfoldedValue

/-- What is read from a commit with a signature: the payload that was signed, and the signature
ending in one line feed. -/
lemma signedPayload_withSignature {signature : Bytes} (h : (flds.withSignature signature).validate = .ok ())
    (hnone : flds.extraHeaders.any (isSignatureName ·.name) = false) {commit : Commit}
    (hcommit : commit = Commit.ofGraph (flds.withSignature signature).encode (flds.tree, flds.parents)) :
    commit.signedPayload =
        some ⟨flds.encode, withoutFinalNewline signature ++ [10], some flds.committer.seconds⟩ ∧
      commit.signatures = [withoutFinalNewline signature] := by
  have hvd := validate_withSignature h
  have hoth := fun raw hraw => @spans_not_signature flds hvd hnone raw hraw
  obtain ⟨header, hhd⟩ :
    ∃ header : CommitHeader, header = ⟨signatureName flds.tree.format,
    withoutFinalNewline signature⟩ := ⟨_, rfl⟩
  have hname : header.name = signatureName flds.tree.format := by rw [hhd]
  have hval : header.value = withoutFinalNewline signature := by rw [hhd]
  have hspa : (flds.withSignature signature).spans = flds.spans ++ [header.encode] := by
    rw [hhd, spans_withSignature]
  have hsig : header.validate = .ok () :=
    (fields_valid h).2.2.2 header (mem_append_right _ (mem_singleton.mpr hhd))
  have href := ofRaw_encode hsig
  have hnat : isNativeSignature flds.tree.format header.encode := by
    rw [isNativeSignature, href, hname]
    simp
  have hsigned : isSignatureHeader header.encode := by
    rw [isSignatureHeader, href, hname]
    simp [signatureName_isSignatureName]
  have hunf : (ofRaw header.encode).unfoldedValue = withoutFinalNewline signature := by
    rw [href, unfoldedValue_folded, hval]
  have hpart : signaturePart flds.tree.format header.encode = withoutFinalNewline signature ++ [10] := by
    have hlast : header.encode.getLast? = some 10 := getLast?_concat
    rw [signaturePart, hunf, hlast, href, hname]
    simp
  have hkeeps : flds.spans.filter (! isSignatureHeader ·) = flds.spans :=
    filter_eq_self.mpr fun raw hraw => by rw [hoth raw hraw]; rfl
  have hpar : flds.spans.flatMap (signaturePart flds.tree.format) = [] :=
    flatMap_eq_nil_iff.mpr fun raw hraw => (signaturePart_of_not (hoth raw hraw) _).2
  have hnative : flds.spans.filter (isNativeSignature flds.tree.format) = [] :=
    filter_eq_nil_iff.mpr fun raw hraw => by simp [(signaturePart_of_not (hoth raw hraw) _).1]
  have hview := ofBytes_encode h
  rw [hspa] at hview
  have hany : (flds.spans ++ [header.encode]).any (isNativeSignature flds.tree.format) := by
    rw [any_append, any_cons, hnat]
    simp
  have hdate : commit.committedAt = some flds.committer.seconds := by
    rw [hcommit]
    exact committedAt_built h _
  have hpay : commit.payload = (flds.withSignature signature).encode := by rw [hcommit]; rfl
  have htree : commit.tree = flds.tree := by rw [hcommit]; rfl
  have henc : flds.spans.flatten ++ 10 :: flds.message = flds.encode := by
    rw [flatten_spans, CommitFields.encode]
  constructor
  · rw [Commit.signedPayload]
    simp only [hpay, htree, hview, hany, if_true, hdate, filter_append, hkeeps, flatMap_append, hpar]
    simp [hsigned, hpart, ← henc, CommitFields.withSignature]
  · rw [Commit.signatures, hpay, htree, hview]
    simp [hnative, hnat, hunf]

lemma new_eq_ok {commit : Commit} : Commit.new flds = .ok commit ↔
    flds.validate = .ok () ∧ Commit.ofGraph flds.encode (flds.tree, flds.parents) = commit := by
  constructor
  · intro h
    obtain ⟨⟨⟩, hvd, hcommit⟩ := bind_ok.mp h
    exact ⟨hvd, Except.ok.inj hcommit⟩
  · rintro ⟨hvd, rfl⟩
    exact bind_ok.mpr ⟨(), hvd, rfl⟩

/-- Building a commit loses nothing. Its fields come back from its payload; the fixed-width reader
gives the commit that the general one gives, so its tree, parents and date are the same; and a
signed commit holds the bytes that were signed and the signature without its last line feed. -/
theorem commit_codec :
    (∀ fields : CommitFields, fields.validate = .ok () → ∃ commit, Commit.new fields = .ok commit ∧
      Commit.parse fields.tree.format commit.payload = .ok commit ∧ commit.toFields = .ok fields) ∧
    (∀ format payload, Commit.parse format payload = (generalGraph format payload).map (Commit.ofGraph payload)) ∧
    (∀ (ε : Type) (fields : CommitFields) (sign : Bytes → Except ε Bytes) (commit : Commit),
      buildSigned fields sign = .ok commit → ∃ signature, sign fields.encode = .ok signature ∧
        commit.signedPayload = some
          ⟨fields.encode, withoutFinalNewline signature ++ [10], some fields.committer.seconds⟩ ∧
        commit.signatures = [withoutFinalNewline signature]) := by
  refine ⟨fun fields hvd => ?_, fun format payload => ?_, fun ε fields sign commit hbui => ?_⟩
  · refine ⟨_, new_eq_ok.mpr ⟨hvd, rfl⟩, ?_, built_toFields hvd⟩
    exact congrArg _ (built_graph hvd)
  · rw [Commit.parse, parseGraph_eq_generalGraph]
  obtain ⟨⟨⟩, hnone, hbui⟩ := bind_ok.mp hbui
  obtain ⟨unsigned, huns, hbui⟩ := bind_ok.mp hbui
  obtain ⟨signature, hsigned, hsig⟩ := bind_ok.mp hbui
  rw [wrapError_eq_ok, new_eq_ok] at huns hsig
  rw [wrapError_eq_ok] at hsigned
  rw [reject_ok, Bool.not_eq_true] at hnone
  obtain ⟨-, rfl⟩ := huns
  exact ⟨signature, hsigned, signedPayload_withSignature hsig.1 hnone hsig.2.symm⟩

def emptyTree : ObjectId := ⟨.sha1, [75, 130, 93, 198, 66, 203, 110, 185, 160, 96, 229, 75, 248, 214, 146, 136, 251,
  238, 73, 4], rfl⟩

def sampleFields : CommitFields :=
  { tree := emptyTree
    parents := [emptyTree]
    author := ⟨ascii "A", ascii "a@example.com", 1, 0⟩
    committer := ⟨ascii "A", ascii "a@example.com", -1, -90⟩
    extraHeaders := [⟨ascii "note", [97, 10, 98]⟩]
    message := ascii "m" }

theorem commit_codec_sample : ∃ commit, Commit.new sampleFields = .ok commit ∧
    Commit.parse .sha1 commit.payload = .ok commit ∧ commit.toFields = .ok sampleFields :=
  commit_codec.1 sampleFields (by decide +kernel)

/-- The line feed at the end of a signer's output is not part of the header's value. -/
theorem signature_without_newline : ∃ commit,
    buildSigned sampleFields (fun _ => (.ok [115, 10] : Except Empty Bytes)) = .ok commit ∧
      commit.signatures = [[115]] := by
  exact ⟨_, rfl, by decide +kernel⟩

end Signature

end Girt
