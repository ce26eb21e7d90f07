import Mathlib.Data.Prod.Lex
import Girt.Commit
import Girt.Lib.OrderedMap

/-!
# Objects and the objects they name

Commits name their tree and their parents, trees name their entries and tags their target, each with
the kind that it has to have.
-/

namespace Girt
open ByteLib Pieces Refs.Files

/-- Identities are ordered by format, then by digest. -/
def ObjectFormat.rank : ObjectFormat → Nat
  | sha1 => 0
  | sha256 => 1

instance : LinearOrder ObjectId := LinearOrder.lift' (fun id => toLex (id.format.rank, id.bytes)) (by
  intro a b h
  simp only [toLex_inj, Prod.mk.injEq] at h
  have hformat : a.format = b.format := by
    cases ha : a.format <;> cases hb : b.format <;> simp_all [ObjectFormat.rank]
  exact ObjectId.ext hformat h.2)

structure Object where
  kind : ObjectKind
  data : Bytes
  deriving DecidableEq

def ObjectId.fromHex (format : ObjectFormat) (text : Bytes) : Option ObjectId :=
  if text.length ≠ format.digestLen * 2 then none else hexBytes text >>= ObjectId.fromBytes format

section Tree

inductive EntryMode where
  | blob
  | executable
  | symlink
  | tree
  | gitlink
  deriving DecidableEq

inductive TreeError where
  | missingModeDelimiter
  | unsupportedMode
  | missingNameDelimiter
  | truncatedObjectId
  deriving DecidableEq

def octalValue (mode : UInt32) : Bytes → Option UInt32
  | [] => some mode
  | byte :: bytes => if 48 ≤ byte ∧ byte ≤ 55 then octalValue (mode * 8 + (byte - 48).toUInt32) bytes else none

def EntryMode.ofBits (mode : UInt32) : EntryMode :=
  if mode &&& 0o170000 = 0o040000 then .tree
  else if mode &&& 0o170000 = 0o100000 then if mode &&& 0o100 ≠ 0 then .executable else .blob
  else if mode &&& 0o170000 = 0o120000 then .symlink
  else .gitlink

def EntryMode.parse (bytes : Bytes) : Except TreeError EntryMode :=
  if bytes = [] then .error .unsupportedMode
  else
    match octalValue 0 bytes with
    | none => .error .unsupportedMode
    | some mode => .ok (EntryMode.ofBits mode)

structure RawEntry where
  mode : EntryMode
  name : Bytes
  id : ObjectId
  deriving DecidableEq

def parseOne (format : ObjectFormat) (payload : Bytes) : Except TreeError (RawEntry × Bytes) :=
  match splitOnce payload 32 with
  | none => .error .missingModeDelimiter
  | some (mode, rest) =>
    match EntryMode.parse mode with
    | .error error => .error error
    | .ok mode =>
      match splitOnce rest 0 with
      | none => .error .missingNameDelimiter
      | some (name, rest) =>
        match ObjectId.fromBytes format (rest.take format.digestLen) with
        | none => .error .truncatedObjectId
        | some id => .ok (⟨mode, name, id⟩, rest.drop format.digestLen)

lemma length_of_parseOne {format : ObjectFormat} {payload rest : Bytes} {entry : RawEntry}
    (h : parseOne format payload = .ok (entry, rest)) : rest.length < payload.length := by
  unfold parseOne at h
  split at h
  · cases h
  · rename_i mode afterMode hmode
    split at h
    · cases h
    · split at h
      · cases h
      · rename_i name afterName hname
        split at h
        · cases h
        · obtain ⟨rfl, -⟩ := splitOnce_eq_some.mp hmode
          obtain ⟨rfl, -⟩ := splitOnce_eq_some.mp hname
          obtain ⟨-, rfl⟩ := Prod.mk.inj (Except.ok.inj h)
          simp only [List.length_append, List.length_cons, List.length_drop]
          omega

/-- The entries of a payload up to the first that cannot be read, and why it cannot. -/
def rawEntries (format : ObjectFormat) (payload : Bytes) : List RawEntry × Option TreeError :=
  if payload = [] then ([], none)
  else
    match _h : parseOne format payload with
    | .error error => ([], some error)
    | .ok (entry, rest) => (entry :: (rawEntries format rest).1, (rawEntries format rest).2)
termination_by payload.length
decreasing_by all_goals exact length_of_parseOne _h

/-- The edge of an entry; a gitlink names a commit of another repository. -/
def RawEntry.edge (entry : RawEntry) : Option (ObjectId × ObjectKind) :=
  match entry.mode with
  | .gitlink => none
  | .tree => some (entry.id, .tree)
  | _ => some (entry.id, .blob)

end Tree

section Tag

inductive TagError where
  | unterminatedHeader
  | requiredHeader
  | invalidObjectId
  | invalidObjectKind
  deriving DecidableEq

def ObjectKind.parse (bytes : Bytes) : Except TagError ObjectKind :=
  if bytes = ascii "blob" then .ok .blob
  else if bytes = ascii "tree" then .ok .tree
  else if bytes = ascii "commit" then .ok .commit
  else if bytes = ascii "tag" then .ok .tag
  else .error .invalidObjectKind

/-- The next line, which has to end, after the start it has to have. -/
def tagLine (start : Bytes) : List Bytes → Except TagError (Bytes × List Bytes)
  | [] => .error .unterminatedHeader
  | line :: lines =>
    if line.getLast? ≠ some 10 then .error .unterminatedHeader
    else
      match stripPrefixOf start line.dropLast with
      | none => .error .requiredHeader
      | some text => .ok (text, lines)

/-- The target of a tag, from the lines that every tag has. -/
def Tag.parseTarget (format : ObjectFormat) (payload : Bytes) : Except TagError (ObjectId × ObjectKind) := do
  let (text, lines) ← tagLine (ascii "object ") (splitInclusive 10 payload)
  match ObjectId.fromHex format text with
  | none => .error .invalidObjectId
  | some target => do
    let (text, lines) ← tagLine (ascii "type ") lines
    let kind ← ObjectKind.parse text
    let _ ← tagLine (ascii "tag ") lines
    return (target, kind)

end Tag

section Edges

/-- The objects that an object names, with their kinds. The parents of a commit count unless the
history is cut there; of a tree that cannot be read to its end, the entries before count. -/
def Object.edges (format : ObjectFormat) (cut : Bool) (object : Object) : List (ObjectId × ObjectKind) :=
  match object.kind with
  | .blob => []
  | .commit =>
    match parseGraph format object.data with
    | .error _ => []
    | .ok (tree, parents) => (tree, .tree) :: if cut then [] else parents.map fun parent => (parent, .commit)
  | .tree => (rawEntries format object.data).1.filterMap RawEntry.edge
  | .tag =>
    match Tag.parseTarget format object.data with
    | .error _ => []
    | .ok edge => [edge]

end Edges

end Girt
