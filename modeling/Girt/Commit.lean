import Girt.Lib.Decimal
import Girt.Refs.Files.Transaction

/-!
# Commits

A commit is a payload of header lines, an empty line and a message. The graph records come first: a
tree and then the parents. Identities and other headers are interpreted on demand, and building a
commit writes them from fields.
-/

namespace Girt
open ByteLib Pieces DecimalLib Refs.Files

inductive CommitError where
  | objectFormat (expected actual : ObjectFormat)
  | missingSeparator
  | requiredHeader
  | invalidObjectId
  | invalidSignature
  | invalidDate
  | invalidHeader
  deriving DecidableEq

/-- A header beside the graph records and the identities, with the value unfolded. -/
structure CommitHeader where
  name : Bytes
  value : Bytes
  deriving DecidableEq

structure CommitFields where
  tree : ObjectId
  parents : List ObjectId
  author : Signature
  committer : Signature
  extraHeaders : List CommitHeader
  message : Bytes
  deriving DecidableEq

structure Commit where
  tree : ObjectId
  parents : List ObjectId
  payload : Bytes
  headerEnd : Nat
  deriving DecidableEq

/-- An identity whose date is not yet interpreted. -/
structure IdentityRef where
  name : Bytes
  email : Bytes
  dateBytes : Bytes
  deriving DecidableEq

section Identity

def trimAsciiStart (bytes : Bytes) : Bytes := bytes.dropWhile Signature.isAsciiWhitespace

/-- An optional sign and at least one digit, and what follows them. -/
def signedDecimal (bytes : Bytes) : Option (Bytes × Bytes) :=
  let sign := if bytes.head? = some 43 ∨ bytes.head? = some 45 then 1 else 0
  let count := ((bytes.drop sign).takeWhile isDigit).length
  if 0 < count then some (bytes.splitAt (sign + count)) else none

def signedValue (bytes : Bytes) : Int :=
  if bytes.head? = some 45 then -(value (bytes.drop 1))
  else if bytes.head? = some 43 then value (bytes.drop 1)
  else value bytes

/-- A number in a range of integers, or nothing. -/
def parseWithin (low high : Int) (bytes : Bytes) : Option Int :=
  let n := signedValue bytes
  if low ≤ n ∧ n ≤ high then some n else none

def IdentityRef.parse (bytes : Bytes) : Except CommitError IdentityRef :=
  match splitOnce bytes 60 with
  | none => .error .invalidSignature
  | some (name, rest) =>
    match splitOnce rest 62 with
    | none => .error .invalidSignature
    | some (email, dateBytes) => .ok ⟨trimAsciiEnd name, email, dateBytes⟩

/-- Minutes from the number of an hour and minute field, rounding to zero. -/
def zoneMinutes (hhmm : Int) : Option Int16 :=
  let minutes := hhmm.tdiv 100 * 60 + hhmm.tmod 100
  if -32768 ≤ minutes ∧ minutes ≤ 32767 then some (Int16.ofInt minutes) else none

def IdentityRef.date (identity : IdentityRef) : Except CommitError (Int64 × Int16) :=
  match signedDecimal (trimAsciiStart identity.dateBytes) with
  | none => .error .invalidDate
  | some (seconds, zone) =>
    match parseWithin (-2 ^ 63) (2 ^ 63 - 1) seconds with
    | none => .error .invalidDate
    | some seconds =>
      let zone := trimAsciiStart zone
      if zone.head? ≠ some 43 ∧ zone.head? ≠ some 45 then .error .invalidDate
      else
        match (signedDecimal zone).bind fun (hhmm, _) => parseWithin (-2 ^ 31) (2 ^ 31 - 1) hhmm with
        | none => .error .invalidDate
        | some hhmm =>
          match zoneMinutes hhmm with
          | none => .error .invalidDate
          | some minutes => .ok (Int64.ofInt seconds, minutes)

def IdentityRef.signature (identity : IdentityRef) : Except CommitError Signature :=
  identity.date.map fun (seconds, offsetMinutes) => ⟨identity.name, identity.email, seconds, offsetMinutes⟩

def Signature.validate (signature : Signature) : Except CommitError Unit := do
  reject (validComponent signature.name = false ∨ validComponent signature.email = false) CommitError.invalidSignature
  reject (¬(-1439 ≤ signature.offsetMinutes ∧ signature.offsetMinutes ≤ 1439)) CommitError.invalidDate

end Identity

section Graph

variable (format : ObjectFormat)

def treeStart : Bytes := ascii "tree "

def parentStart : Bytes := ascii "parent "

def commitId (text : Bytes) : Except CommitError ObjectId :=
  if text.length ≠ format.digestLen * 2 then .error .invalidObjectId
  else
    match hexBytes text >>= ObjectId.fromBytes format with
    | none => .error .invalidObjectId
    | some id => .ok id

def stripPrefixOf (start bytes : Bytes) : Option Bytes :=
  if start.isPrefixOf bytes then some (bytes.drop start.length) else none

/-- The identity of a line that has to end and to start in one way. -/
def requiredId (start line : Bytes) : Except CommitError ObjectId :=
  match if line.getLast? = some 10 then stripPrefixOf start line.dropLast else none with
  | none => .error .requiredHeader
  | some text => commitId format text

/-- The parents of the lines after the tree, and the lines after them; `remaining` counts the bytes of
all of them. -/
def parentLines (format : ObjectFormat) (remaining : Nat) :
    List Bytes → Except CommitError (List ObjectId × List Bytes)
  | [] => .ok ([], [])
  | line :: lines =>
    if format.digestLen * 2 + 8 ≤ remaining ∧ parentStart.isPrefixOf line = true then do
      let id ← requiredId format parentStart line
      let (ids, rest) ← parentLines format (remaining - line.length) lines
      return (id :: ids, rest)
    else .ok ([], line :: lines)

def generalGraph (payload : Bytes) : Except CommitError (ObjectId × List ObjectId) :=
  match splitInclusive 10 payload with
  | [] => .error .requiredHeader
  | first :: lines => do
    let tree ← requiredId format treeStart first
    let (parents, rest) ← parentLines format (payload.length - first.length) lines
    reject (rest = []) CommitError.requiredHeader
    return (tree, parents)

/-- A record of the width that an identity of the format gives it. -/
def fixedRecord (start rest : Bytes) : Option ObjectId :=
  (stripPrefixOf start rest).bind fun text =>
    if text[format.digestLen * 2]? ≠ some 10 then none
    else (commitId format (text.take (format.digestLen * 2))).toOption

def fixedParents (format : ObjectFormat) (rest : Bytes) : Option (List ObjectId × Bytes) :=
  if _h : format.digestLen * 2 + 8 ≤ rest.length ∧ parentStart.isPrefixOf rest = true then
    match fixedRecord format parentStart rest with
    | none => none
    | some id => (fixedParents format (rest.drop (format.digestLen * 2 + 8))).map fun (ids, rest) => (id :: ids, rest)
  else some ([], rest)
termination_by rest.length
decreasing_by
  rw [List.length_drop]
  omega

def fixedWidthGraph (payload : Bytes) : Option (ObjectId × List ObjectId) :=
  (fixedRecord format treeStart payload).bind fun tree =>
    (fixedParents format (payload.drop (format.digestLen * 2 + 6))).bind fun (parents, rest) =>
      if rest = [] then none else some (tree, parents)

def parseGraph (payload : Bytes) : Except CommitError (ObjectId × List ObjectId) :=
  match fixedWidthGraph format payload with
  | some graph => .ok graph
  | none => generalGraph format payload

end Graph

section Headers

variable (commit : Commit)

/-- The position of the first empty line, before the line feed that ends the headers. -/
def headerEndOf : Bytes → Nat
  | [] => 0
  | byte :: rest => if byte = 10 ∧ rest.head? = some 10 then 0 else headerEndOf rest + 1

def Commit.ofGraph (payload : Bytes) (graph : ObjectId × List ObjectId) : Commit :=
  ⟨graph.1, graph.2, payload, headerEndOf payload⟩

def Commit.parse (format : ObjectFormat) (payload : Bytes) : Except CommitError Commit :=
  (parseGraph format payload).map (Commit.ofGraph payload)

def Commit.headerBytes : Bytes := commit.payload.take commit.headerEnd

def Commit.message : Bytes := commit.payload.drop (commit.headerEnd + 2)

/-- The last line that starts with the name of a person. -/
def Commit.person (start : Bytes) : Except CommitError (Option IdentityRef) :=
  match ((commit.headerBytes.splitOn 10).filterMap (stripPrefixOf start)).getLast? with
  | none => .ok none
  | some line => (IdentityRef.parse line).map some

def authorStart : Bytes := ascii "author "

def committerStart : Bytes := ascii "committer "

def Commit.author : Except CommitError (Option IdentityRef) := commit.person authorStart

def Commit.committer : Except CommitError (Option IdentityRef) := commit.person committerStart

def requiredPerson : Except CommitError (Option IdentityRef) → Except CommitError Signature
  | .error error => .error error
  | .ok none => .error .requiredHeader
  | .ok (some identity) => identity.signature

def isReserved (name : Bytes) : Bool :=
  name == ascii "tree" || name == ascii "parent" || name == ascii "author" || name == ascii "committer"

def continueLast (headers : List CommitHeader) (line : Bytes) : List CommitHeader :=
  match headers.getLast? with
  | none => []
  | some header => headers.dropLast ++ [{ header with value := header.value ++ 10 :: line }]

/-- The other headers of header lines; the flag says whether the last header takes continuations. -/
def extraHeadersFrom (headers : List CommitHeader) (continueExtra : Bool) :
    List Bytes → Except CommitError (List CommitHeader)
  | [] => .ok headers
  | line :: lines =>
    if line = [] then extraHeadersFrom headers continueExtra lines
    else if line.head? = some 32 then
      extraHeadersFrom (if continueExtra then continueLast headers (line.drop 1) else headers) continueExtra lines
    else
      match splitOnce line 32 with
      | none => .error .invalidHeader
      | some (name, value) =>
        if isReserved name then extraHeadersFrom headers false lines
        else extraHeadersFrom (headers ++ [⟨name, value⟩]) true lines

def Commit.toFields : Except CommitError CommitFields := do
  let author ← requiredPerson commit.author
  let committer ← requiredPerson commit.committer
  let extraHeaders ← extraHeadersFrom [] false (commit.headerBytes.splitOn 10)
  return ⟨commit.tree, commit.parents, author, committer, extraHeaders, commit.message⟩

end Headers

section Building

def validateHeaderName (name : Bytes) : Except CommitError Unit :=
  reject (name = [] ∨ name.all (fun b => 33 ≤ b && b ≤ 126) = false ∨ isReserved name = true) CommitError.invalidHeader

def CommitHeader.validate (header : CommitHeader) : Except CommitError Unit := do
  validateHeaderName header.name
  reject (0 ∈ header.value ∨ 13 ∈ header.value) CommitError.invalidHeader

def requireCommitFormat (format : ObjectFormat) (id : ObjectId) : Except CommitError Unit :=
  reject (id.format ≠ format) (CommitError.objectFormat format id.format)

def CommitFields.validate (fields : CommitFields) : Except CommitError Unit := do
  fields.parents.forM (requireCommitFormat fields.tree.format)
  fields.author.validate
  fields.committer.validate
  fields.extraHeaders.forM CommitHeader.validate

def CommitHeader.encode (header : CommitHeader) : Bytes :=
  header.name ++ 32 :: ([10, 32].intercalate (header.value.splitOn 10)) ++ [10]

def CommitFields.headerLines (fields : CommitFields) : Bytes :=
  treeStart ++ idText fields.tree ++ [10] ++
    fields.parents.flatMap (fun parent => parentStart ++ idText parent ++ [10]) ++
    (ascii "author" ++ fields.author.encode ++ [10]) ++ (ascii "committer" ++ fields.committer.encode ++ [10]) ++
    fields.extraHeaders.flatMap CommitHeader.encode

def CommitFields.encode (fields : CommitFields) : Bytes := fields.headerLines ++ 10 :: fields.message

def Commit.new (fields : CommitFields) : Except CommitError Commit := do
  fields.validate
  return Commit.ofGraph fields.encode (fields.tree, fields.parents)

end Building

section Signing

def signatureName : ObjectFormat → Bytes
  | .sha1 => ascii "gpgsig"
  | .sha256 => ascii "gpgsig-sha256"

def isSignatureName (name : Bytes) : Bool := name == signatureName .sha1 || name == signatureName .sha256

inductive SignError (ε : Type) where
  | commit (error : CommitError)
  | signer (error : ε)
  | existingSignature

def withoutFinalNewline (bytes : Bytes) : Bytes := if bytes.getLast? = some 10 then bytes.dropLast else bytes

def CommitFields.withSignature (fields : CommitFields) (signature : Bytes) : CommitFields :=
  { fields with extraHeaders := fields.extraHeaders ++
      [⟨signatureName fields.tree.format, withoutFinalNewline signature⟩] }

def buildSigned {ε : Type} (fields : CommitFields) (sign : Bytes → Except ε Bytes) :
    Except (SignError ε) Commit := do
  reject (fields.extraHeaders.any (isSignatureName ·.name) = true) SignError.existingSignature
  let unsigned ← wrapError SignError.commit (Commit.new fields)
  let signature ← wrapError SignError.signer (sign unsigned.payload)
  wrapError SignError.commit (Commit.new (fields.withSignature signature))

/-- The header lines of a payload, each header with its continuations and its line feeds, and what
comes after the headers, from the empty line on. -/
structure CommitPayload where
  headers : List Bytes
  after : Bytes
  deriving DecidableEq

def addLine (headers : List Bytes) (line : Bytes) : List Bytes :=
  if line.head? = some 32 ∧ headers ≠ [] then headers.dropLast ++ [headers.getLastD [] ++ line] else headers ++ [line]

def CommitPayload.scan (headers : List Bytes) : List Bytes → CommitPayload
  | [] => ⟨headers, []⟩
  | line :: lines => if line = [10] then ⟨headers, (line :: lines).flatten⟩ else scan (addLine headers line) lines

def CommitPayload.ofBytes (bytes : Bytes) : CommitPayload := CommitPayload.scan [] (splitInclusive 10 bytes)

structure CommitHeaderRef where
  hasValueSeparator : Bool
  name : Bytes
  value : Bytes
  deriving DecidableEq

/-- The name and the value of a header; the value keeps the framing of its continuations. -/
def CommitHeaderRef.ofRaw (raw : Bytes) : CommitHeaderRef :=
  let line := withoutFinalNewline raw
  let first := line.takeWhile (· ≠ 10)
  match first.findIdx? (· == 32) with
  | some space => ⟨true, line.take space, line.drop (space + 1)⟩
  | none => ⟨false, first, []⟩

def unfoldLine (line : Bytes) : Bytes := if line.head? = some 32 then line.drop 1 else line

def CommitHeaderRef.unfoldedValue (header : CommitHeaderRef) : Bytes :=
  match header.value.splitOn 10 with
  | [] => []
  | first :: lines => first ++ lines.flatMap fun line => 10 :: unfoldLine line

structure SignedPayload where
  payload : Bytes
  signature : Bytes
  signedAt : Option Int64
  deriving DecidableEq

/-- What one header adds to the signature of a format: its value with a line feed when its line ends. -/
def signaturePart (format : ObjectFormat) (raw : Bytes) : Bytes :=
  let header := CommitHeaderRef.ofRaw raw
  if header.hasValueSeparator && header.name == signatureName format then
    header.unfoldedValue ++ if raw.getLast? = some 10 then [10] else []
  else []

def isSignatureHeader (raw : Bytes) : Bool :=
  let header := CommitHeaderRef.ofRaw raw
  header.hasValueSeparator && isSignatureName header.name

def isNativeSignature (format : ObjectFormat) (raw : Bytes) : Bool :=
  let header := CommitHeaderRef.ofRaw raw
  header.hasValueSeparator && header.name == signatureName format

def Commit.committedAt (commit : Commit) : Option Int64 :=
  match commit.committer with
  | .ok (some identity) => identity.date.toOption.map Prod.fst
  | _ => none

def Commit.signedPayload (commit : Commit) : Option SignedPayload :=
  let view := CommitPayload.ofBytes commit.payload
  let format := commit.tree.format
  if view.headers.any (isNativeSignature format) then
    some
      { payload := (view.headers.filter (! isSignatureHeader ·)).flatten ++ view.after
        signature := view.headers.flatMap (signaturePart format)
        signedAt := commit.committedAt }
  else none

end Signing

end Girt
