import Girt.Lib.Lines
import Girt.Wildmatch

/-!
# Pathspecs

A pathspec selects paths of the repository by included and excluded patterns. A walk asks for each
directory whether nothing below it, everything below it, or something in between is selected.
-/

namespace Girt.Paths
open ByteLib Pieces Wildmatch

/-- The directory and the defaults that specs are parsed against. The prefix starts with no slash. -/
structure Context where
  prefixBytes : Bytes
  glob : Bool
  noglob : Bool
  icase : Bool
  literal : Bool
  excludesFromRoot : Bool
  relative : prefixBytes.head? ≠ some 47

inductive Expected where
  | set
  | unset
  | unspecified
  | value (bytes : Bytes)
  deriving DecidableEq

structure Requirement where
  name : Bytes
  expected : Expected
  deriving DecidableEq

inductive Reason where
  | unclosedMagic
  | unknownMagic (word : Bytes)
  | globWithLiteral
  | multipleAttr
  | emptyAttr
  | invalidAttrName (name : Bytes)
  | trailingEscape
  | outsideRepository
  deriving DecidableEq

inductive ParseError where
  | empty
  | invalid (spec : Bytes) (reason : Reason)
  deriving DecidableEq

section Components

lemma head?_intercalate_ne {components : List Bytes} (h : ∀ c ∈ components, c ≠ [] ∧ 47 ∉ c) :
    ([47].intercalate components).head? ≠ some 47 := by
  cases components with
  | nil => simp [List.intercalate]
  | cons first components =>
    obtain ⟨hne, hsl⟩ := h first List.mem_cons_self
    cases first with
    | nil => exact absurd rfl hne
    | cons byte first =>
      have hbyte : byte ≠ 47 := by
        rintro rfl
        exact hsl List.mem_cons_self
      cases components <;> simpa [List.intercalate] using hbyte

def Context.withPrefix (context : Context) (path : Bytes) : Context :=
  { context with
    prefixBytes := [47].intercalate ((path.splitOn 47).filter (· ≠ []))
    relative := head?_intercalate_ne fun c hc => by
      obtain ⟨hmem, hne⟩ := List.mem_filter.mp hc
      exact ⟨by simpa using hne, Pieces.not_mem_of_mem_splitOn hmem⟩ }

/-- The components of a path after `.`, `..` and repeated slashes, and whether a slash ends it. -/
def resolve : List Bytes → List Bytes → Bool → Option (List Bytes × Bool)
  | [], components, directory => some (components, directory)
  | component :: rest, components, _ =>
    if component = [] then resolve rest components true
    else if component = [46] then resolve rest components false
    else if component = [46, 46] then
      if components = [] then none else resolve rest components.dropLast false
    else resolve rest (components ++ [component]) false

def normalize (path : Bytes) : Option Bytes :=
  if path.head? = some 47 then none
  else (resolve (path.splitOn 47) [] false).map fun (components, directory) =>
    let normalized := [47].intercalate components
    if directory ∧ normalized ≠ [] then normalized ++ [47] else normalized

lemma resolve_components {rest components components' : List Bytes} {directory directory' : Bool}
    (hrest : ∀ c ∈ rest, 47 ∉ c) (hcom : ∀ c ∈ components, c ≠ [] ∧ 47 ∉ c)
    (h : resolve rest components directory = some (components', directory')) :
    ∀ c ∈ components', c ≠ [] ∧ 47 ∉ c := by
  induction rest generalizing components directory with
  | nil =>
    cases h
    exact hcom
  | cons component rest ih =>
    have htail : ∀ c ∈ rest, 47 ∉ c := fun c hc => hrest c (List.mem_cons_of_mem _ hc)
    unfold resolve at h
    split at h
    · exact ih htail hcom h
    · split at h
      · exact ih htail hcom h
      · split at h
        · split at h
          · cases h
          · exact ih htail (fun c hc => hcom c (List.mem_of_mem_dropLast hc)) h
        · rename_i hne _ _
          refine ih htail (fun c hc => ?_) h
          rcases List.mem_append.mp hc with hc | hc
          · exact hcom c hc
          · rw [List.mem_singleton.mp hc]
            exact ⟨hne, hrest _ List.mem_cons_self⟩

lemma normalize_head {path pattern : Bytes} (h : normalize path = some pattern) :
    pattern.head? ≠ some 47 := by
  unfold normalize at h
  split at h
  · cases h
  · obtain ⟨⟨components, directory⟩, hres, rfl⟩ := Option.map_eq_some_iff.mp h
    have hhead := head?_intercalate_ne (resolve_components
      (fun _ => Pieces.not_mem_of_mem_splitOn) (fun _ hc => absurd hc List.not_mem_nil) hres)
    simp only
    split
    · rename_i hdir
      rwa [List.head?_append_of_ne_nil _ hdir.2]
    · exact hhead

def slice (bytes : Bytes) (start stop : Nat) : Option Bytes :=
  if stop ≤ bytes.length then some ((bytes.drop start).take (stop - start)) else none

/-- How many bytes of a pattern are the unchanged components of the prefix, from some byte on. -/
def fixedFrom (pattern : Bytes) : List Bytes → Nat → Nat
  | [], fixed => fixed
  | component :: rest, fixed =>
    let stop := fixed + component.length
    if slice pattern fixed stop ≠ some component ∨ ¬(pattern[stop]? = none ∨ pattern[stop]? = some 47) then fixed
    else fixedFrom pattern rest (min (stop + 1) pattern.length)

def fixedLen (pattern path : Bytes) : Nat := fixedFrom pattern (path.splitOn 47) 0

lemma fixedFrom_le {pattern : Bytes} {components : List Bytes} {fixed : Nat}
    (h : fixed ≤ pattern.length) : fixedFrom pattern components fixed ≤ pattern.length := by
  induction components generalizing fixed with
  | nil => exact h
  | cons component rest ih =>
    unfold fixedFrom
    simp only
    split
    · exact h
    · exact ih (Nat.min_le_right _ _)

end Components

section Items

/-- A spec with its pattern from the root of the repository. The part before the first wildcard is
literal, and within it the part that the prefix gave is always compared with case. -/
structure Item where
  pattern : Bytes
  literalLen : Nat
  exclude : Bool
  icase : Bool
  glob : Bool
  attributes : List Requirement
  fixed : Nat
  fixed_le : fixed ≤ literalLen
  literal_le : literalLen ≤ pattern.length
  relative : pattern.head? ≠ some 47

def Item.literal (pattern : Bytes) (relative : pattern.head? ≠ some 47) : Item where
  pattern := pattern
  literalLen := pattern.length
  exclude := false
  icase := false
  glob := false
  attributes := []
  fixed := pattern.length
  fixed_le := le_rfl
  literal_le := le_rfl
  relative := relative

structure Magic where
  top : Bool
  exclude : Bool
  icase : Bool
  literal : Bool
  glob : Bool
  attributes : Option (List Requirement)
  deriving DecidableEq

def Magic.none : Magic := ⟨false, false, false, false, false, .none⟩

def validName (name : Bytes) : Bool :=
  name != [] && name.head? != some 45 &&
    name.all fun b => isAlphabetic b || isDigit b || b == 45 || b == 46 || b == 95

def unescape : Bytes → Except Reason Bytes
  | [] => .ok []
  | byte :: rest =>
    if byte = 92 then
      match rest with
      | [] => .error .trailingEscape
      | next :: rest => (unescape rest).map (next :: ·)
    else (unescape rest).map (byte :: ·)

def Requirement.split (word : Bytes) : Except Reason (Bytes × Expected) :=
  if word.head? = some 45 then .ok (word.drop 1, .unset)
  else if word.head? = some 33 then .ok (word.drop 1, .unspecified)
  else
    match splitOnce word 61 with
    | some (name, value) => (unescape value).map fun value => (name, .value value)
    | none => .ok (word, .set)

def Requirement.parse (word : Bytes) : Except Reason Requirement := do
  let (name, expected) ← Requirement.split word
  if validName name then return ⟨name, expected⟩ else throw (.invalidAttrName name)

def Requirement.parseList (list : Bytes) : Except Reason (List Requirement) := do
  let requirements ← ((list.splitOn 32).filter (· ≠ [])).mapM Requirement.parse
  if requirements = [] then throw .emptyAttr else return requirements

def attrWord : Bytes := ascii "attr:"

def Magic.word (magic : Magic) (word : Bytes) : Except Reason Magic :=
  if word = [] then .ok magic
  else if word = ascii "top" then .ok { magic with top := true }
  else if word = ascii "exclude" then .ok { magic with exclude := true }
  else if word = ascii "icase" then .ok { magic with icase := true }
  else if word = ascii "literal" then .ok { magic with literal := true }
  else if word = ascii "glob" then .ok { magic with glob := true }
  else if attrWord.isPrefixOf word then
    if magic.attributes.isSome then .error .multipleAttr
    else (Requirement.parseList (word.drop attrWord.length)).map fun list => { magic with attributes := some list }
  else .error (.unknownMagic word)

/-- Long magic up to its closing bracket, and the path after it. A backslash keeps the next byte in the
word. -/
def Magic.long (magic : Magic) (word : Bytes) : Bytes → Except Reason (Magic × Bytes)
  | [] => .error .unclosedMagic
  | byte :: rest =>
    if byte = 92 then
      match rest with
      | [] => .error .unclosedMagic
      | next :: rest => magic.long (word ++ [byte, next]) rest
    else if byte = 44 then
      match magic.word word with
      | .error reason => .error reason
      | .ok magic => magic.long [] rest
    else if byte = 41 then (magic.word word).map fun magic => (magic, rest)
    else magic.long (word ++ [byte]) rest

def Magic.short (magic : Magic) : Bytes → Magic × Bytes
  | [] => (magic, [])
  | byte :: rest =>
    if byte = 47 then Magic.short { magic with top := true } rest
    else if byte = 33 ∨ byte = 94 then Magic.short { magic with exclude := true } rest
    else if byte = 58 then (magic, rest)
    else (magic, byte :: rest)

def Magic.parse (spec : Bytes) : Except Reason (Magic × Bytes) :=
  match spec with
  | 58 :: 40 :: long => Magic.none.long [] long
  | 58 :: rest => .ok (Magic.none.short rest)
  | spec => .ok (Magic.none, spec)

def isWildcard (byte : UInt8) : Bool := byte == 42 || byte == 63 || byte == 91 || byte == 92

def literalLenFrom (pattern : Bytes) (fixed : Nat) : Nat :=
  (((pattern.drop fixed).findIdx? isWildcard).map (fixed + ·)).getD pattern.length

lemma literalLenFrom_le {pattern : Bytes} {fixed : Nat} (h : fixed ≤ pattern.length) :
    fixed ≤ literalLenFrom pattern fixed ∧ literalLenFrom pattern fixed ≤ pattern.length := by
  unfold literalLenFrom
  cases hfind : (pattern.drop fixed).findIdx? isWildcard with
  | none => exact ⟨h, le_rfl⟩
  | some position =>
    have hlt := (List.findIdx?_eq_some_iff_findIdx_eq.mp hfind).1
    rw [List.length_drop] at hlt
    simp only [Option.map_some, Option.getD_some]
    omega

def Item.ofPattern (context : Context) (magic : Magic) (literal : Bool) (pattern : Bytes)
    (relative : pattern.head? ≠ some 47) : Item :=
  let rooted := magic.top || context.prefixBytes == []
  let fixed := if rooted then 0 else fixedLen pattern context.prefixBytes
  have hfixed : fixed ≤ pattern.length := by
    change (if rooted then 0 else fixedLen pattern context.prefixBytes) ≤ _
    split
    · exact Nat.zero_le _
    · exact fixedFrom_le (Nat.zero_le _)
  { pattern
    literalLen := if literal then pattern.length else literalLenFrom pattern fixed
    exclude := magic.exclude
    icase := magic.icase || context.icase
    glob := !literal && (magic.glob || context.glob)
    attributes := magic.attributes.getD []
    fixed
    fixed_le := by
      split
      · exact hfixed
      · exact (literalLenFrom_le hfixed).1
    literal_le := by
      split
      · exact le_rfl
      · exact (literalLenFrom_le hfixed).2
    relative }

/-- The magic of a spec and the path after it; in a literal context a spec has no magic. -/
def Magic.ofSpec (context : Context) (spec : Bytes) : Except Reason (Magic × Bytes) :=
  if context.literal then .ok ({ Magic.none with literal := true }, spec) else Magic.parse spec

def Item.parse (context : Context) (spec : Bytes) : Except ParseError Item := do
  reject (spec = []) ParseError.empty
  let (magic, path) ← wrapError (ParseError.invalid spec) (Magic.ofSpec context spec)
  reject (magic.glob && magic.literal) (ParseError.invalid spec .globWithLiteral)
  let literal := magic.literal || (context.noglob && !magic.glob)
  let path := if magic.top || context.prefixBytes == [] then path else context.prefixBytes ++ 47 :: path
  match h : normalize path with
  | none => throw (.invalid spec .outsideRepository)
  | some pattern => return Item.ofPattern context magic literal pattern (normalize_head h)

/-- Compares two byte strings from the start of a path; the fixed part always with case. -/
def Item.equal (item : Item) (left right : Bytes) : Bool :=
  if left.length ≠ right.length then false
  else
    let fixed := min item.fixed left.length
    left.take fixed == right.take fixed &&
      (if item.icase then ((left.drop fixed).zip (right.drop fixed)).all fun (a, b) => eqIgnoreCase a b
        else left.drop fixed == right.drop fixed)

def Item.above (item : Item) (short long : Bytes) : Bool :=
  (slice long 0 short.length).any fun start => item.equal start short

def Item.hasWildcards (item : Item) : Bool := item.literalLen < item.pattern.length

/-- Whether the whole pattern, read literally, names a path or a directory above it. -/
def Item.names (item : Item) (path : Bytes) : Bool :=
  item.pattern == [] ||
    (slice path 0 item.pattern.length).any fun start =>
      item.equal start item.pattern &&
        (item.pattern.getLast? == some 47 || path.length == item.pattern.length ||
          path[item.pattern.length]? == some 47)

def Item.matchesPattern (item : Item) (path : Bytes) : Bool :=
  if item.above (item.pattern.take item.literalLen) path = false then false
  else item.names path ||
    (item.hasWildcards && (matchesWithPathname (item.pattern.drop item.fixed) (path.drop item.fixed) item.icase
      usizeMax item.glob).getD false)

def meets {ε : Type} (satisfied : Requirement → Except ε Bool) : List Requirement → Except ε Bool
  | [] => .ok true
  | requirement :: rest => do
    if ← satisfied requirement then meets satisfied rest else return false

def Item.matches {ε : Type} (item : Item) (path : Bytes) (satisfied : Requirement → Except ε Bool) : Except ε Bool :=
  if item.matchesPattern path then meets satisfied item.attributes else .ok false

inductive Prune where
  | skip
  | descend
  | all
  deriving DecidableEq

def Prune.rank : Prune → Nat
  | .skip => 0
  | .descend => 1
  | .all => 2

instance : LinearOrder Prune := LinearOrder.lift' Prune.rank (by intro a b; cases a <;> cases b <;> decide)

def Item.named (item : Item) : Bytes :=
  if item.pattern.getLast? = some 47 then item.pattern.dropLast else item.pattern

/-- Whether a directory is the named one or lies below it. -/
def Item.below (item : Item) (directory named : Bytes) : Bool :=
  (slice directory 0 named.length).any fun start =>
    item.equal start named && (directory.length == named.length || directory[named.length]? == some 47)

/-- What every path below a directory starts with. -/
def insideOf (directory : Bytes) : Bytes := if directory = [] then [] else directory ++ [47]

def Item.directoryPattern (item : Item) (directory : Bytes) : Prune :=
  let start := item.pattern.take item.literalLen
  if item.named == [] || item.below directory item.named then .all
  else if item.above (insideOf directory) item.named then .descend
  else if item.hasWildcards && (item.above start (insideOf directory) || item.above (insideOf directory) start) then
    .descend
  else .skip

def Item.directory (item : Item) (directory : Bytes) : Prune :=
  let prune := item.directoryPattern directory
  if prune = .all ∧ item.attributes ≠ [] then .descend else prune

end Items

section Lists

structure Pathspec where
  includes : List Item
  excludes : List Item

/-- Only excludes start from the current directory, or from the root. -/
def Pathspec.start (context : Context) : Item :=
  if context.excludesFromRoot then Item.literal [] (by simp) else Item.literal context.prefixBytes context.relative

def Pathspec.ofItems (context : Context) (items : List Item) : Pathspec :=
  let includes := items.filter (! ·.exclude)
  let excludes := items.filter (·.exclude)
  { includes := if includes.isEmpty && !excludes.isEmpty then [Pathspec.start context] else includes
    excludes }

def Pathspec.parse (specs : List Bytes) (context : Context) : Except ParseError Pathspec :=
  (specs.mapM (Item.parse context)).map (Pathspec.ofItems context)

/-- Whether one of the items matches a path; the first match ends the search. -/
def anyMatches {ε : Type} (path : Bytes) (satisfied : Requirement → Except ε Bool) : List Item → Except ε Bool
  | [] => .ok false
  | item :: items => do
    if ← item.matches path satisfied then return true else anyMatches path satisfied items

/-- Without includes every path is included. -/
def Pathspec.included {ε : Type} (spec : Pathspec) (path : Bytes) (satisfied : Requirement → Except ε Bool) :
    Except ε Bool :=
  if spec.includes.isEmpty then .ok true else anyMatches path satisfied spec.includes

def Pathspec.matchesWith {ε : Type} (spec : Pathspec) (path : Bytes) (satisfied : Requirement → Except ε Bool) :
    Except ε Bool := do
  let included ← spec.included path satisfied
  if !included then return false
  let excluded ← anyMatches path satisfied spec.excludes
  return !excluded

/-- The excludes of a directory, up to one that has all of it. -/
def excludedFrom (directory : Bytes) : Prune → List Item → Prune
  | excluded, [] => excluded
  | excluded, item :: items =>
    let excluded := max excluded (item.directory directory)
    if excluded = .all then .all else excludedFrom directory excluded items

def Pathspec.directory (spec : Pathspec) (directory : Bytes) : Prune :=
  if spec.includes.isEmpty && spec.excludes.isEmpty then .all
  else
    let excluded := excludedFrom directory .skip spec.excludes
    let included := ((spec.includes.map (·.directory directory)).max?).getD .all
    if excluded = .all then .skip
    else if included = .all ∧ excluded = .descend then .descend
    else included

end Lists

end Girt.Paths
