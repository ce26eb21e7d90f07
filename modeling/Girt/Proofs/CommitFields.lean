import Girt.Proofs.CommitIdentity

/-!
# Fields of a commit

The headers of a built commit are lines, none of them empty, and reading them gives back the fields.
-/

namespace Girt
open ByteLib Pieces DecimalLib Refs.Files Proofs List
open Commit (ofGraph person)

section Lines

def CommitHeader.lines (header : CommitHeader) : List Bytes :=
  match header.value.splitOn 10 with
  | [] => []
  | first :: rest => (header.name ++ 32 :: first) :: rest.map (32 :: ·)

def treeLine (fields : CommitFields) : Bytes := ascii "tree" ++ 32 :: idText fields.tree

def parentLine (par : ObjectId) : Bytes := ascii "parent" ++ 32 :: idText par

def CommitFields.lines (fields : CommitFields) : List Bytes :=
  treeLine fields :: (fields.parents.map parentLine ++ [ascii "author" ++ fields.author.encode,
    ascii "committer" ++ fields.committer.encode] ++ fields.extraHeaders.flatMap CommitHeader.lines)

lemma joinLines_append (a b : List Bytes) :
    joinLines 10 (a ++ b) = joinLines 10 a ++ joinLines 10 b := by
  simp [joinLines]

lemma joinLines_flatMap {α : Type} (f : α → List Bytes) (l : List α) :
    joinLines 10 (l.flatMap f) = l.flatMap fun a => joinLines 10 (f a) := by
  induction l with
  | nil => rfl
  | cons a l ih => rw [flatMap_cons, joinLines_append, ih, flatMap_cons]

lemma joinLines_cons_append (start first : Bytes) (rest : List Bytes) :
    joinLines 10 ((start ++ first) :: rest) = start ++ joinLines 10 (first :: rest) := by
  simp [joinLines]

lemma intercalate_space (first : Bytes) (rest : List Bytes) :
    [10, 32].intercalate (first :: rest) ++ [10] = joinLines 10 (first :: rest.map (32 :: ·)) := by
  induction rest generalizing first with
  | nil => simp [joinLines]
  | cons second rest ih =>
    have hfold : [10, 32].intercalate (first :: second :: rest) =
        first ++ [10, 32] ++ [10, 32].intercalate (second :: rest) := by
      simp [intercalate]
    have hjoin : joinLines 10 (first :: (second :: rest).map (32 :: ·)) =
        first ++ [10, 32] ++ joinLines 10 (second :: rest.map (32 :: ·)) := by
      simp [joinLines]
    rw [hfold, hjoin, append_assoc, ih]

lemma encode_eq_joinLines (hdr : CommitHeader) : hdr.encode = joinLines 10 hdr.lines := by
  obtain ⟨first, rest, hcut⟩ := exists_cons_of_ne_nil (splitOn_ne_nil 10 hdr.value)
  have hlines : hdr.lines = (hdr.name ++ 32 :: first) :: rest.map (32 :: ·) := by
    simp only [CommitHeader.lines, hcut]
  have hst : hdr.name ++ 32 :: first = (hdr.name ++ [32]) ++ first := by simp
  rw [hlines, hst, joinLines_cons_append, ← intercalate_space, CommitHeader.encode, hcut]
  simp

lemma headerLines_eq (fields : CommitFields) : fields.headerLines = joinLines 10 fields.lines := by
  have htree : treeStart = ascii "tree" ++ [32] := by decide
  have hpar : parentStart = ascii "parent" ++ [32] := by decide
  have hpas : fields.parents.flatMap (parentStart ++ idText · ++ [10]) =
      joinLines 10 (fields.parents.map parentLine) := by
    simp [joinLines, parentLine, hpar, flatMap_map]
  have hhea : fields.extraHeaders.flatMap CommitHeader.encode =
      joinLines 10 (fields.extraHeaders.flatMap CommitHeader.lines) := by
    rw [joinLines_flatMap]
    simp only [← encode_eq_joinLines]
  have hcons : joinLines 10 fields.lines = treeLine fields ++ [10] ++
      (joinLines 10 (fields.parents.map parentLine) ++
      ((ascii "author" ++ fields.author.encode) ++ [10] ++ ((ascii "committer" ++ fields.committer.encode) ++ [10])) ++
      joinLines 10 (fields.extraHeaders.flatMap CommitHeader.lines)) := by
    simp [CommitFields.lines, joinLines]
  rw [CommitFields.headerLines, hpas, hhea, hcons, htree, treeLine]
  simp

end Lines

section Valid

/-- A line that a built commit has before its message. -/
structure HeaderLine (line : Bytes) : Prop where
  ne_nil : line ≠ []
  newline : 10 ∉ line

lemma fields_valid {fields : CommitFields} (h : fields.validate = .ok ()) :
    (∀ par ∈ fields.parents, par.format = fields.tree.format) ∧ fields.author.validate = .ok () ∧
      fields.committer.validate = .ok () ∧ ∀ hdr ∈ fields.extraHeaders, hdr.validate = .ok () := by
  obtain ⟨⟨⟩, hpas, h⟩ := bind_ok.mp h
  obtain ⟨⟨⟩, hau, h⟩ := bind_ok.mp h
  obtain ⟨⟨⟩, hcom, hhea⟩ := bind_ok.mp h
  refine ⟨fun par hpar => ?_, hau, hcom, forM_eq_ok.mp hhea⟩
  have hform := forM_eq_ok.mp hpas par hpar
  rwa [requireCommitFormat, reject_ok, not_not] at hform

lemma header_valid {hdr : CommitHeader} (h : hdr.validate = .ok ()) :
    hdr.name ≠ [] ∧ (∀ b ∈ hdr.name, 33 ≤ b ∧ b ≤ 126) ∧ isReserved hdr.name = false := by
  obtain ⟨⟨⟩, hname, -⟩ := bind_ok.mp h
  rw [validateHeaderName, reject_ok] at hname
  push Not at hname
  obtain ⟨hne, hall, hres⟩ := hname
  exact ⟨hne, by simpa using hall, by simpa using hres⟩

lemma newline_notMem_encode {signature : Signature} (h : signature.validate = .ok ()) :
    10 ∉ signature.encode := by
  obtain ⟨hname, hema, -, -⟩ := validate_eq_ok.mp h
  have hcom : ∀ {component : Bytes}, Signature.validComponent component → 10 ∉ component :=
    fun hvd hmem => ((validComponent_iff.mp hvd).2.1 10 hmem).2.2.1 rfl
  have hdate : 10 ∉ dateText signature := fun hmem => absurd (le_of_mem_dateText h hmem) (by decide)
  rw [encode_eq]
  simp only [mem_cons, mem_append, not_or]
  exact ⟨by decide, hcom hname, by decide, by decide, hcom hema, by decide, hdate⟩

lemma headerLine_encode {sig : Signature} (h : sig.validate = .ok ()) {key : Bytes}
    (hkey : 10 ∉ key) : HeaderLine (key ++ sig.encode) := by
  constructor
  · rw [encode_eq]
    simp
  · rw [mem_append, not_or]
    exact ⟨hkey, newline_notMem_encode h⟩

lemma headerLine_id (id : ObjectId) {key : Bytes} (hkey : 10 ∉ key) :
    HeaderLine (key ++ 32 :: idText id) := by
  constructor
  · simp
  · simp only [mem_append, mem_cons, not_or]
    refine ⟨hkey, by decide, fun hmem => ?_⟩
    exact absurd (idText_range hmem).1 (by decide)

lemma headerLine_header {hdr : CommitHeader} (h : hdr.validate = .ok ()) {line : Bytes}
    (hline : line ∈ hdr.lines) : HeaderLine line := by
  obtain ⟨-, hname, -⟩ := header_valid h
  obtain ⟨first, rest, hcut⟩ := exists_cons_of_ne_nil (splitOn_ne_nil 10 hdr.value)
  have hpc : ∀ piece ∈ first :: rest, 10 ∉ piece := fun piece hmem =>
    not_mem_of_mem_splitOn (hcut ▸ hmem)
  simp only [CommitHeader.lines, hcut, mem_cons, mem_map] at hline
  rcases hline with rfl | ⟨piece, hmem, rfl⟩
  · constructor
    · simp
    · simp only [mem_append, mem_cons, not_or]
      refine ⟨fun hmem => absurd (hname 10 hmem).1 (by decide), by decide, hpc first (.head _)⟩
  · constructor
    · simp
    · simp only [mem_cons, not_or]
      exact ⟨by decide, hpc piece (.tail _ hmem)⟩

lemma headerLine_of_mem {fields : CommitFields} (h : fields.validate = .ok ()) {line : Bytes}
    (hline : line ∈ fields.lines) : HeaderLine line := by
  obtain ⟨-, hau, hcom, hhea⟩ := fields_valid h
  simp only [CommitFields.lines, mem_cons, mem_append, mem_map, mem_flatMap, not_mem_nil,
    or_false] at hline
  rcases hline with rfl | (⟨par, -, rfl⟩ | rfl | rfl) | ⟨hdr, hhd, hline⟩
  · exact headerLine_id _ (by decide)
  · exact headerLine_id _ (by decide)
  · exact headerLine_encode hau (by decide)
  · exact headerLine_encode hcom (by decide)
  · exact headerLine_header (hhea hdr hhd) hline

end Valid

section Split

lemma headerEndOf_append {line rest : Bytes} (h : 10 ∉ line) :
    headerEndOf (line ++ rest) = line.length + headerEndOf rest := by
  induction line with
  | nil => simp
  | cons byte line ih =>
    rw [mem_cons, not_or] at h
    rw [cons_append, headerEndOf, if_neg fun hbyte => h.1 hbyte.1.symm, ih h.2, length_cons]
    omega

lemma headerEndOf_joinLines {lines : List Bytes} (hne : lines ≠ [])
    (h : ∀ line ∈ lines, HeaderLine line) (msg : Bytes) :
    headerEndOf (joinLines 10 lines ++ 10 :: msg) + 1 = (joinLines 10 lines).length := by
  induction lines with
  | nil => exact absurd rfl hne
  | cons line lines ih =>
    have hjoin : joinLines 10 (line :: lines) = line ++ 10 :: joinLines 10 lines := by simp [joinLines]
    rw [hjoin, append_assoc, headerEndOf_append (h line mem_cons_self).newline, cons_append, headerEndOf]
    cases lines with
    | nil =>
      simp [joinLines]
    | cons next lines =>
      have hnext := h next (.tail _ (.head _))
      rw [if_neg, length_append, length_cons,
        ← ih (cons_ne_nil _ _) fun other hoth => h other (.tail _ hoth)]
      · omega
      rintro ⟨-, hhead⟩
      obtain ⟨byte, next, rfl⟩ := exists_cons_of_ne_nil hnext.ne_nil
      have hbyte : byte = 10 := by simpa [joinLines] using hhead
      exact hnext.newline (hbyte ▸ (.head _))

variable {fields : CommitFields}

lemma lines_ne_nil (fields : CommitFields) : fields.lines ≠ [] := cons_ne_nil _ _

lemma built_lines (h : fields.validate = .ok ()) (graph : ObjectId × List ObjectId) :
    (ofGraph fields.encode graph).headerBytes.splitOn 10 = fields.lines ∧
      (ofGraph fields.encode graph).message = fields.message := by
  have hlines : ∀ line ∈ fields.lines, HeaderLine line := fun line => headerLine_of_mem h
  have hend := headerEndOf_joinLines (lines_ne_nil fields) hlines fields.message
  have henc : fields.encode = joinLines 10 fields.lines ++ 10 :: fields.message := by
    rw [CommitFields.encode, headerLines_eq]
  have hjoin := @joinLines_eq_intercalate UInt8 10 fields.lines (lines_ne_nil fields)
  constructor
  · have hhd : (ofGraph fields.encode graph).headerBytes = [10].intercalate fields.lines := by
      have hlen := congrArg length hjoin
      rw [length_append, length_singleton] at hlen
      have hat : headerEndOf (joinLines 10 fields.lines ++ 10 :: fields.message) =
          ([10].intercalate fields.lines).length := by omega
      simp only [Commit.headerBytes, ofGraph, henc]
      rw [hat, hjoin, append_assoc, take_left]
    rw [hhd, splitOn_intercalate 10 (fun line hline => (hlines line hline).newline) (lines_ne_nil fields)]
  · simp only [Commit.message, ofGraph, henc]
    rw [append_cons]
    exact drop_left' (by rw [length_append, length_singleton, ← append_cons]; omega)

end Split

section Reading

variable {fields : CommitFields}
variable {key : Bytes} {hdr : CommitHeader}

lemma stripPrefixOf_named {name val : Bytes} (hkey : 32 ∉ key) (hname : 32 ∉ name) :
    stripPrefixOf (key ++ [32]) (name ++ 32 :: val) = if name = key then some val else none := by
  split
  · rename_i hsame
    subst hsame
    exact stripPrefixOf_eq_some.mpr (by simp)
  rename_i hoth
  cases hstrip : stripPrefixOf (key ++ [32]) (name ++ 32 :: val) with
  | none => rfl
  | some text =>
    have hline := stripPrefixOf_eq_some.mp hstrip
    rw [append_assoc, singleton_append] at hline
    have hcut : splitOnce (name ++ 32 :: val) 32 = some (name, val) := splitOnce_eq_some.mpr ⟨rfl, hname⟩
    have hkyS : splitOnce (key ++ 32 :: text) 32 = some (key, text) := splitOnce_eq_some.mpr ⟨rfl, hkey⟩
    rw [hline, hkyS] at hcut
    exact absurd (congrArg Prod.fst (Option.some.inj hcut)).symm hoth

lemma space_notMem_name (h : hdr.validate = .ok ()) : 32 ∉ hdr.name :=
  fun hmem => absurd ((header_valid h).2.1 32 hmem).1 (by decide)

lemma stripPrefixOf_header (h : hdr.validate = .ok ()) (hsp : 32 ∉ key) (hres : isReserved key)
    {line : Bytes} (hline : line ∈ hdr.lines) : stripPrefixOf (key ++ [32]) line = none := by
  obtain ⟨-, -, hoth⟩ := header_valid h
  obtain ⟨first, rest, hcut⟩ := exists_cons_of_ne_nil (splitOn_ne_nil 10 hdr.value)
  simp only [CommitHeader.lines, hcut, mem_cons, mem_map] at hline
  rcases hline with rfl | ⟨piece, -, rfl⟩
  · rw [stripPrefixOf_named hsp (space_notMem_name h), if_neg]
    rintro rfl
    rw [hres] at hoth
    cases hoth
  · cases hstrip : stripPrefixOf (key ++ [32]) (32 :: piece) with
    | none => rfl
    | some text =>
      have hst := stripPrefixOf_eq_some.mp hstrip
      cases key with
      | nil => exact absurd hres (by decide)
      | cons byte key =>
        obtain ⟨rfl, -⟩ := cons.inj hst
        exact absurd (.head _) hsp

lemma person_line (sig : Signature) (hsp : 32 ∉ key) (start : Bytes) (hst : 32 ∉ start) :
    stripPrefixOf (start ++ [32]) (key ++ sig.encode) = if key = start then
      some (sig.name ++ 32 :: 60 :: (sig.email ++ 62 :: dateText sig)) else none := by
  rw [encode_eq]
  exact stripPrefixOf_named hst hsp

lemma extraHeadersFrom_reserved (hsp : 32 ∉ key) (hres : isReserved key) (heads : List CommitHeader)
    (extra : Bool) (val : Bytes) (lines : List Bytes) :
    extraHeadersFrom heads extra ((key ++ 32 :: val) :: lines) =
      extraHeadersFrom heads false lines := by
  have hne : key ≠ [] := by
    rintro rfl
    exact absurd hres (by decide)
  have hhead : (key ++ 32 :: val).head? ≠ some 32 := by
    obtain ⟨byte, key, rfl⟩ := exists_cons_of_ne_nil hne
    simp only [cons_append, head?_cons, ne_eq, Option.some.injEq]
    rintro rfl
    exact hsp (.head _)
  have hcut : splitOnce (key ++ 32 :: val) 32 = some (key, val) := splitOnce_eq_some.mpr ⟨rfl, hsp⟩
  rw [extraHeadersFrom, if_neg (by simp), if_neg hhead, hcut]
  simp [hres]

lemma intercalate_newline (first : Bytes) (rest : List Bytes) :
    [10].intercalate (first :: rest) = first ++ rest.flatMap (10 :: ·) := by
  induction rest generalizing first with
  | nil => simp
  | cons second rest ih =>
    have hcons : [10].intercalate (first :: second :: rest) = first ++
        10 :: [10].intercalate (second :: rest) := by
      simp [intercalate]
    rw [hcons, ih]
    simp

lemma extraHeadersFrom_continue (heads : List CommitHeader) (name val : Bytes)
    (rest lines : List Bytes) :
    extraHeadersFrom (heads ++ [⟨name, val⟩]) true (rest.map (32 :: ·) ++ lines) =
      extraHeadersFrom (heads ++ [⟨name, val ++ rest.flatMap (10 :: ·)⟩]) true lines := by
  induction rest generalizing val with
  | nil => simp
  | cons piece rest ih =>
    rw [map_cons, cons_append, extraHeadersFrom, if_neg (cons_ne_nil _ _),
      if_pos (show (32 :: piece).head? = some 32 from rfl), if_pos rfl]
    have hlast : continueLast (heads ++ [⟨name, val⟩]) ((32 :: piece).drop 1) =
        heads ++ [⟨name, val ++ 10 :: piece⟩] := by
      simp [continueLast]
    rw [hlast, ih]
    simp

lemma extraHeadersFrom_header (h : hdr.validate = .ok ()) (heads : List CommitHeader) (extra : Bool)
    (lines : List Bytes) :
    extraHeadersFrom heads extra (hdr.lines ++ lines) =
      extraHeadersFrom (heads ++ [hdr]) true lines := by
  obtain ⟨hne, -, hres⟩ := header_valid h
  obtain ⟨first, rest, hval⟩ := exists_cons_of_ne_nil (splitOn_ne_nil 10 hdr.value)
  have hsp := space_notMem_name h
  have hhead : (hdr.name ++ 32 :: first).head? ≠ some 32 := by
    obtain ⟨byte, name, hname⟩ := exists_cons_of_ne_nil hne
    rw [hname] at hsp ⊢
    simp only [cons_append, head?_cons, ne_eq, Option.some.injEq]
    rintro rfl
    exact hsp (.head _)
  have hcut : splitOnce (hdr.name ++ 32 :: first) 32 = some (hdr.name, first) :=
    splitOnce_eq_some.mpr ⟨rfl, hsp⟩
  have hjoin : first ++ rest.flatMap (10 :: ·) = hdr.value := by
    rw [← intercalate_newline, ← hval, intercalate_splitOn]
  simp only [CommitHeader.lines, hval]
  rw [cons_append, extraHeadersFrom, if_neg (by simp), if_neg hhead, hcut]
  simp only [hres, Bool.false_eq_true, if_false]
  rw [extraHeadersFrom_continue, hjoin]

variable (h : fields.validate = .ok ())
include h

/-- A person is read from the one line that begins with the key. -/
lemma person_eq (graph : ObjectId × List ObjectId) (hsp : 32 ∉ key)
    (hres : isReserved key) (htree : ascii "tree" ≠ key) (hpar : ascii "parent" ≠ key)
    {sig : Signature} (hsig : sig.validate = .ok ())
    (hline : [ascii "author" ++ fields.author.encode, ascii "committer" ++ fields.committer.encode].filterMap
      (stripPrefixOf (key ++ [32])) = [sig.name ++ 32 :: 60 :: (sig.email ++ 62 :: dateText sig)]) :
    requiredPerson (person (ofGraph fields.encode graph) (key ++ [32])) = .ok sig := by
  obtain ⟨-, -, -, hhea⟩ := fields_valid h
  have hfirst : stripPrefixOf (key ++ [32]) (treeLine fields) = none := by
    rw [treeLine, stripPrefixOf_named hsp (by decide), if_neg htree]
  have hpas : (fields.parents.map parentLine).filterMap (stripPrefixOf (key ++ [32])) = [] := by
    rw [filterMap_eq_nil_iff]
    intro line hline
    obtain ⟨par, -, rfl⟩ := mem_map.mp hline
    rw [parentLine, stripPrefixOf_named hsp (by decide), if_neg hpar]
  have hext : (fields.extraHeaders.flatMap CommitHeader.lines).filterMap (stripPrefixOf (key ++ [32])) = [] := by
    rw [filterMap_eq_nil_iff]
    intro line hline
    obtain ⟨hdr, hhd, hline⟩ := mem_flatMap.mp hline
    exact stripPrefixOf_header (hhea hdr hhd) hsp hres hline
  rw [person, (built_lines h graph).1, CommitFields.lines, filterMap_cons, hfirst, filterMap_append,
    filterMap_append,
    hpas, hext, hline]
  simp only [nil_append, append_nil, getLast?_singleton, parse_identity hsig]
  exact signature_identity hsig

lemma built_person (graph : ObjectId × List ObjectId) :
    requiredPerson (ofGraph fields.encode graph).author = .ok fields.author ∧
      requiredPerson (ofGraph fields.encode graph).committer = .ok fields.committer := by
  obtain ⟨-, hau, hcom, -⟩ := fields_valid h
  constructor
  · refine @person_eq fields (ascii "author") h graph (by decide) (by decide) (by decide) (by decide) _ hau ?_
    rw [filterMap_cons, filterMap_cons, person_line _ (by decide) _ (by decide),
      person_line _ (by decide) _ (by decide)]
    rfl
  · refine @person_eq fields (ascii "committer") h graph (by decide) (by decide) (by decide) (by decide) _ hcom ?_
    rw [filterMap_cons, filterMap_cons, person_line _ (by decide) _ (by decide),
      person_line _ (by decide) _ (by decide)]
    rfl

lemma built_headers : extraHeadersFrom [] false fields.lines = .ok fields.extraHeaders := by
  obtain ⟨-, -, -, hhea⟩ := fields_valid h
  have hpas : ∀ (pars : List ObjectId) (lines : List Bytes),
      extraHeadersFrom [] false (pars.map parentLine ++ lines) = extraHeadersFrom [] false lines := by
    intro pars lines
    induction pars with
    | nil => rfl
    | cons par pars ih =>
      exact ih
  have hext : ∀ (heads done : List CommitHeader) (extra : Bool),
      (∀ hdr ∈ heads, hdr.validate = .ok ()) →
      extraHeadersFrom done extra (heads.flatMap CommitHeader.lines) = .ok (done ++ heads) := by
    intro heads
    induction heads with
    | nil => intro done extra _; simp [extraHeadersFrom]
    | cons hdr heads ih =>
      intro done extra hvd
      rw [flatMap_cons, extraHeadersFrom_header (hvd hdr mem_cons_self),
        ih _ _ fun other hoth => hvd other (.tail _ hoth)]
      simp
  rw [CommitFields.lines, treeLine, extraHeadersFrom_reserved (by decide) (by decide), append_assoc, hpas,
    encode_eq, encode_eq, cons_append, extraHeadersFrom_reserved (by decide) (by decide), cons_append,
    extraHeadersFrom_reserved (by decide) (by decide), nil_append, hext _ _ _ hhea, nil_append]

lemma built_graph :
    parseGraph fields.tree.format fields.encode = .ok (fields.tree, fields.parents) := by
  obtain ⟨hpas, -, -, -⟩ := fields_valid h
  obtain ⟨tail, htail⟩ : ∃ tail, fields.encode = treeStart ++ idText fields.tree ++
      10 :: (fields.parents.flatMap (parentStart ++ idText · ++ [10]) ++ (ascii "author" ++ tail)) := by
    exact ⟨_, by simp only [CommitFields.encode, CommitFields.headerLines, append_assoc, cons_append,
      nil_append]; rfl⟩
  have hlen : (idText fields.tree).length = fields.tree.format.digestLen * 2 := idText_length fields.tree
  have hst : treeStart.length = 5 := by decide
  have hfix : fixedWidthGraph fields.tree.format fields.encode = some (fields.tree, fields.parents) := by
    have hrest : fields.encode.drop (fields.tree.format.digestLen * 2 + 6) =
        fields.parents.flatMap (parentStart ++ idText · ++ [10]) ++ (ascii "author" ++ tail) := by
      rw [htail, append_cons]
      exact drop_left' (by simp [hlen, hst]; omega)
    have hau : parentStart.isPrefixOf (ascii "author" ++ tail) = false := rfl
    have hne : ascii "author" ++ tail ≠ [] := by
      intro hnil
      exact absurd (append_eq_nil_iff.mp hnil).1 (by decide)
    rw [fixedWidthGraph, hrest, fixedParents_written hpas hau, htail, fixedRecord_written rfl]
    simp only [Option.bind_some, if_neg hne]
  rw [parseGraph, hfix]

lemma built_toFields :
    (ofGraph fields.encode (fields.tree, fields.parents)).toFields = .ok fields := by
  obtain ⟨hlines, hmes⟩ := built_lines h (fields.tree, fields.parents)
  obtain ⟨hau, hcom⟩ := built_person h (fields.tree, fields.parents)
  refine bind_ok.mpr ⟨_, hau, bind_ok.mpr ⟨_, hcom, bind_ok.mpr ⟨fields.extraHeaders, ?_, ?_⟩⟩⟩
  · rw [hlines, built_headers h]
  · rw [hmes]
    rfl

end Reading

end Girt
