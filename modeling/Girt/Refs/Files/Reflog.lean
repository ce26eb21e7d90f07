import Girt.Objects.Edges

/-!
# Reading reflogs

A log has one line for each entry: two identities, a committer with a date and, after a tab, a message.
-/

namespace Girt.Refs.Files
open ByteLib Pieces DecimalLib

structure ReflogEntry where
  old : ObjectId
  new : ObjectId
  committer : Signature
  message : Bytes
  deriving DecidableEq

namespace ReflogEntry

def encode (entry : ReflogEntry) : Except ReferenceError Bytes :=
  encodeLog entry.old entry.new entry.committer entry.message

def parseId (format : ObjectFormat) (bytes : Bytes) (path : Path) : Except ReferenceError ObjectId :=
  match ObjectId.fromHex format bytes with
  | none => .error (.malformed path "invalid reflog ID")
  | some id => .ok id

/-- A date follows white space and has a zone of a sign and four digits after the first blank. -/
def framed (date : Bytes) : Bool :=
  date.head?.any Signature.isAsciiWhitespace &&
    match (splitOnce (trimAsciiStart date) space).map Prod.snd with
    | some (sign :: digits) => (sign == 43 || sign == 45) && digits.length == 4 && digits.all isDigit
    | _ => false

def parseLine (format : ObjectFormat) (path : Path) (line : Bytes) : Except ReferenceError ReflogEntry := do
  let width := format.digestLen * 2
  reject ((line)[width]? ≠ some space ∨ (line)[2 * width + 1]? ≠ some space)
    (.malformed path "expected two repository-format reflog IDs")
  let old ← parseId format (line.take width) path
  let new ← parseId format ((line.drop (width + 1)).take width) path
  let rest := line.drop (2 * width + 2)
  let (identity, message) := (splitOnce rest 9).getD (rest, [])
  let person ← wrapError (fun _ => .malformed path "invalid reflog identity") (IdentityRef.parse identity)
  reject (framed person.dateBytes = false) (.malformed path "invalid reflog date framing")
  let committer ← wrapError (fun _ => .malformed path "reflog identity or numeric date exceeds reader limits")
    person.signature
  reject (identity.contains 0 ∨ identity.contains 13 ∨ message.any fun b => b == 0 || b == 13)
    (.malformed path "NUL or CR in reflog record")
  pure ⟨old, new, committer, message⟩

def parse (format : ObjectFormat) (bytes : Bytes) (path : Path) : Except ReferenceError (List ReflogEntry) :=
  if bytes = [] then .ok []
  else if bytes.getLast? = some newline then (bytes.dropLast.splitOn newline).mapM (parseLine format path)
  else .error (.malformed path "unterminated reflog record")

end ReflogEntry

end Girt.Refs.Files
