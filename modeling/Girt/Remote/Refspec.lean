import Girt.Refs.Name

/-!
# Refspecs

A refspec maps the names of sources to the names of destinations. A fetch maps what a remote
advertises, and negative refspecs exclude sources from it.
-/

namespace Girt.Remote
open ByteLib Girt.Refs

inductive Direction where
  | fetch
  | push
  deriving DecidableEq

inductive RefspecError where
  | syntaxError (reason : String)
  | unsupported (reason : String)
  | name
  deriving DecidableEq

inductive MappingError where
  | unmatchedSource (source : Bytes)
  | duplicateSource (name : RefName)
  | zeroId (name : RefName)
  | collision (destination : RefName)
  | invalidDestination
  | direction
  | limit (what : String)
  | cancelled
  deriving DecidableEq

structure Refspec where
  raw : Bytes
  source : Bytes
  destination : Option Bytes
  force : Bool
  negative : Bool
  wildcard : Bool
  deriving DecidableEq

def stars (pattern : Bytes) : Nat := pattern.countP (· = 42)

def starAt (pattern : Bytes) : Option Nat := pattern.findIdx? (· = 42)

def stripStart (start bytes : Bytes) : Option Bytes :=
  if start.isPrefixOf bytes then some (bytes.drop start.length) else none

def stripEnd (stop bytes : Bytes) : Option Bytes :=
  if stop.isSuffixOf bytes then some (bytes.take (bytes.length - stop.length)) else none

/-- What the wildcard at a position stands for in a name. -/
def captured (pattern : Bytes) (star : Nat) (name : Bytes) : Option Bytes :=
  (stripStart (pattern.take star) name).bind (stripEnd (pattern.drop (star + 1)))

/-- A pattern with something in place of the wildcard at a position. -/
def substituted (pattern : Bytes) (star : Nat) (capture : Bytes) : Bytes :=
  pattern.take star ++ capture ++ pattern.drop (star + 1)

/-- What the wildcard of a pattern stands for in a name, or nothing where a pattern without one is the name. -/
def capturedBy (pattern name : Bytes) : Option Bytes :=
  match starAt pattern with
  | some star => captured pattern star name
  | none => if pattern = name then some [] else none

/-- A pattern with something in place of its wildcard, if it has one. -/
def filled (pattern capture : Bytes) : Bytes :=
  match starAt pattern with
  | some star => substituted pattern star capture
  | none => pattern

def validatePattern (bytes : Bytes) (source : Bool) : Except RefspecError Unit :=
  if source ∧ bytes = ascii "HEAD" then .ok ()
  else if !(ascii "refs/").isPrefixOf bytes then
    .error (.unsupported "requires full refs/ name; only exact source HEAD is allowed")
  else
    match RefName.new (bytes.map (fun b => if b = 42 then 120 else b)) with
    | none => .error .name
    | some _ => .ok ()

/-- An empty source is not checked; neither is a destination that is absent. -/
def validateSides (source : Bytes) (destination : Option Bytes) : Except RefspecError Unit := do
  if source = [] then pure () else validatePattern source true
  match destination with
  | some destination => validatePattern destination false
  | none => pure ()

namespace Refspec

/-- The destination of a refspec: none, the explicit one, or for a push without one the source. -/
def destinationPart (direction : Direction) (explicit : Option Bytes) (negative : Bool) (source : Bytes) :
    Except RefspecError (Option Bytes) :=
  if negative then .ok none
  else
    match direction, explicit with
    | .fetch, none => .ok none
    | .fetch, some destination => .ok (if destination = [] then none else some destination)
    | .push, none => .ok (some source)
    | .push, some destination =>
      if destination = [] then .error (.unsupported "empty push destination") else .ok (some destination)

def parse (direction : Direction) (bytes : Bytes) : Except RefspecError Refspec := do
  let force := (ascii "+").isPrefixOf bytes
  let body := if force then bytes.drop 1 else bytes
  let negative := (ascii "^").isPrefixOf body
  let body := if negative then body.drop 1 else body
  reject (negative ∧ (direction ≠ .fetch ∨ force ∨ body.contains 58))
    (.syntaxError "negative specs are fetch-only, without + or destination")
  reject (body = [] ∨ body = ascii ":" ∨ (ascii "tag ").isPrefixOf body)
    (.unsupported "empty/default, matching, or tag shorthand")
  let parts := body.splitOn 58
  let source := parts.headD []
  reject (2 < parts.length) (.syntaxError "more than one colon")
  let destination ← destinationPart direction parts[1]? negative source
  reject (source = [] ∧ direction = .fetch) (.unsupported "empty fetch source")
  let sourceStars := stars source
  let destinationStars := (destination.map stars).getD 0
  reject (1 < sourceStars ∨ 1 < destinationStars ∨ (!negative ∧ sourceStars ≠ destinationStars))
    (.syntaxError "wildcards require exactly one * on both sides")
  validateSides source destination
  pure ⟨bytes, source, destination, force, negative, sourceStars = 1⟩

/-- What the wildcard of the source stands for in a name, or nothing for an exact source. -/
def capture (spec : Refspec) (name : Bytes) : Option Bytes :=
  if spec.wildcard then (starAt spec.source).bind (fun star => captured spec.source star name)
  else if spec.source = name then some [] else none

def destinationFor (spec : Refspec) (capture : Bytes) : Except MappingError (Option RefName) :=
  match spec.destination with
  | none => .ok none
  | some pattern =>
    match RefName.new (filled pattern capture) with
    | none => .error .invalidDestination
    | some name => .ok (some name)

def sourceForDestination (spec : Refspec) (destination : RefName) : Option Bytes :=
  if spec.negative then none
  else
    spec.destination.bind (fun pattern =>
      (capturedBy pattern destination.bytes).map (fun capture => filled spec.source capture))

end Refspec

structure RefSource where
  name : RefName
  id : ObjectId
  deriving DecidableEq

inductive ForceIntent where
  | normal
  | requested
  deriving DecidableEq

structure Mapping where
  source : Option RefSource
  destination : Option RefName
  force : ForceIntent
  deriving DecidableEq

inductive AdvertisementKind where
  | tip
  | peeledHint
  deriving DecidableEq

structure AdvertisedRef where
  name : RefName
  id : ObjectId
  kind : AdvertisementKind

structure Advertisement where
  refs : List AdvertisedRef

def Advertisement.tips (advertisement : Advertisement) : List RefSource :=
  (advertisement.refs.filter (fun reference => reference.kind = .tip)).map (fun reference => ⟨reference.name, reference.id⟩)

/-- An ordered list of refspecs, each as its text is parsed. -/
structure Refspecs where
  direction : Direction
  specs : List Refspec
  parsed : ∀ spec ∈ specs, Refspec.parse direction spec.raw = .ok spec

/-- The mappings that were selected, what was seen before and which destinations are taken. -/
structure Plan where
  mappings : List Mapping
  seen : List Mapping
  destinations : List RefName

namespace Plan

def empty : Plan := ⟨[], [], []⟩

def add (plan : Plan) (mapping : Mapping) : Except MappingError Plan :=
  if mapping ∈ plan.seen then .ok plan
  else
    match mapping.destination with
    | none => .ok ⟨plan.mappings ++ [mapping], mapping :: plan.seen, plan.destinations⟩
    | some destination =>
      if destination ∈ plan.destinations then .error (.collision destination)
      else .ok ⟨plan.mappings ++ [mapping], mapping :: plan.seen, destination :: plan.destinations⟩

end Plan

namespace Refspecs

def excluded (specs : Refspecs) (source : Bytes) : Bool :=
  specs.specs.any (fun spec => spec.negative && (spec.capture source).isSome)

/-- The sources that positive refspecs map to a destination, without those that are excluded. -/
def pruneSources (specs : Refspecs) (destination : RefName) : List Bytes :=
  (specs.specs.filterMap (fun spec => spec.sourceForDestination destination)).filter (fun source => !specs.excluded source)

def checkSources : List RefSource → List RefName → Except MappingError Unit
  | [], _ => .ok ()
  | source :: rest, names =>
    if source.name ∈ names then .error (.duplicateSource source.name)
    else if source.id.isNull then .error (.zeroId source.name)
    else checkSources rest (source.name :: names)

def forceIntent (spec : Refspec) : ForceIntent := if spec.force then .requested else .normal

def selectSources (specs : Refspecs) (spec : Refspec) :
    List RefSource → Plan × Bool → Except MappingError (Plan × Bool)
  | [], state => .ok state
  | source :: rest, (plan, isMatched) =>
    match spec.capture source.name.bytes with
    | none => selectSources specs spec rest (plan, isMatched)
    | some capture =>
      if specs.excluded source.name.bytes then selectSources specs spec rest (plan, true)
      else do
        let destination ← spec.destinationFor capture
        let plan ← plan.add ⟨some source, destination, forceIntent spec⟩
        selectSources specs spec rest (plan, true)

/-- Adds what one positive refspec selects, or reports its source as missing. -/
def selectSpec (specs : Refspecs) (sources : List RefSource) (state : Plan × List Bytes) (spec : Refspec) :
    Except MappingError (Plan × List Bytes) :=
  if spec.source = [] then do
    let destination ← spec.destinationFor []
    let plan ← state.1.add ⟨none, destination, forceIntent spec⟩
    pure (plan, state.2)
  else do
    let (plan, isMatched) ← selectSources specs spec sources (state.1, false)
    pure (plan, if !isMatched && !spec.wildcard then state.2 ++ [spec.source] else state.2)

/-- Maps sources in the order of the positive refspecs, and reports the exact ones that are absent. -/
def mapWithMissing (specs : Refspecs) (sources : List RefSource) :
    Except MappingError (List Mapping × List Bytes) := do
  checkSources sources []
  let (plan, missing) ← (specs.specs.filter (fun spec => !spec.negative)).foldlM (selectSpec specs sources) (Plan.empty, [])
  pure (plan.mappings, missing)

def mapAdvertisementWithMissing (specs : Refspecs) (advertisement : Advertisement) :
    Except MappingError (List Mapping × List Bytes) := do
  reject (specs.direction ≠ .fetch) .direction
  specs.mapWithMissing advertisement.tips

end Refspecs

end Girt.Remote
