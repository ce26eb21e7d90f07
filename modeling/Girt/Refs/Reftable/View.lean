import Girt.Lib.Chain
import Girt.Refs.Reftable.Backend

/-!
# The abstract reference store

What a reader of the stacks sees, as functions of names and update indexes, and what a batch of
edits means for it.
-/

namespace Girt.Refs.Reftable
open ByteLib

/-- The live references and log entries of one stack and the index of its latest update. -/
@[ext] structure StackView where
  refs : Bytes → Option RefRecord
  logs : Bytes → UInt64 → Option LogValue
  last : UInt64

def Table.view (table : Table) : StackView where
  refs name := table.references.find? (fun r => r.name.bytes = name && r.target.isSome)
  logs name index :=
    (table.logs.find? (fun r => r.name.bytes = name && r.updateIndex = index)).bind LogRecord.value
  last := table.maxUpdateIndex

abbrev StoreView := Path → StackView

/-- The store holds readable stacks with these views. -/
def ReadsAs (codec : Codec) (refs : References) (store : Stacks) (view : StoreView) : Prop :=
  ∀ root ∈ directories refs, ∃ s, Snapshot.read codec (store root) refs.format refs.limits = .ok s ∧
    s.table.view = view root

/-- One table was added on top of a stack, with update indexes above all earlier ones. -/
def Extends (codec : Codec) (refs : References) (dir dir' : StackDir) : Prop :=
  ∃ s s' name bytes table, Snapshot.read codec dir refs.format refs.limits = .ok s ∧
    Snapshot.read codec dir' refs.format refs.limits = .ok s' ∧ s'.names = s.names ++ [name] ∧
    dir'.file name = some bytes ∧ Table.decode codec.zlib codec.crc32 bytes refs.limits.records = .ok table ∧
    s.table.maxUpdateIndex < table.minUpdateIndex ∧
    (∀ r ∈ s.table.references, r.updateIndex < table.minUpdateIndex) ∧
    ∀ r ∈ s.table.logs, r.updateIndex < table.minUpdateIndex

namespace StoreView

variable (refs : References) (view : StoreView)

def target (name : RefName) : Option Target :=
  ((view (directory refs name)).refs name.bytes).bind RefRecord.target

def link (name : RefName) : Option RefName :=
  match view.target refs name with
  | some (.symbolic next) => some next
  | _ => none

/-- The object a direct reference names; null for anything else. -/
def objectAt (name : RefName) : ObjectId :=
  match view.target refs name with
  | some (.direct id) => id
  | _ => ObjectId.null refs.format

def hasLog (name : RefName) : Prop := ∃ index, ((view (directory refs name)).logs name.bytes index).isSome

end StoreView

/-- A name that is a directory on the path of another. -/
def Ancestor (a b : RefName) : Prop := a.bytes ++ [slash] <+: b.bytes

/-- No live name lies below another. -/
def StoreView.PrefixFree (refs : References) (view : StoreView) : Prop :=
  ∀ a b, view.target refs a ≠ none → view.target refs b ≠ none → ¬ Ancestor a b

/-- What one edit does: the names it depends on, the name it stores, the logs it writes or
deletes, and the objects a log entry names. -/
structure Plan where
  chain : List RefName
  name : RefName
  logged : List RefName
  old : ObjectId
  new : ObjectId

def Plan.Logs (refs : References) (view : StoreView) (edit : RefEdit) (plan : Plan) : Prop :=
  let named := if edit.dereference = .follow then plan.chain else [plan.name]
  match edit.reflog with
  | .preserve => plan.logged = []
  | .delete => plan.logged = [plan.name]
  | .append _ _ => plan.logged = named
  | .appendIfChanged _ _ => plan.logged = if view.target refs plan.name = edit.target then [] else named
  | .appendExistingIfChanged _ _ => ∀ log, log ∈ plan.logged ↔
      view.target refs plan.name ≠ edit.target ∧ log ∈ named ∧ view.hasLog refs log

/-- The object at the end of a symbolic chain. -/
def StoreView.Resolves (refs : References) (view : StoreView) (chain : List RefName) (id : ObjectId) : Prop :=
  ∃ final, chain.getLast? = some final ∧ id = view.objectAt refs final

/-- An edit whose preconditions hold in `view`, and what it does there. -/
structure Planned (refs : References) (view : StoreView) (edit : RefEdit) (plan : Plan) : Prop where
  chain : if edit.dereference = .follow ∨ edit.reflog.appendFields.isSome
    then Links.Chain (view.link refs) edit.name plan.chain else plan.chain = [edit.name]
  name : some plan.name = if edit.dereference = .follow then plan.chain.getLast? else some edit.name
  expected : edit.expected.admits (view.target refs plan.name)
  logged : plan.Logs refs view edit
  old : view.Resolves refs plan.chain plan.old
  new : edit.reflog.appendFields.isSome → match edit.target with
    | none => plan.new = ObjectId.null refs.format
    | some (.direct id) => plan.new = id
    | some (.symbolic target) =>
      ∃ chain, Links.Chain (view.link refs) target chain ∧ view.Resolves refs chain plan.new

namespace StoreView

/-- One edit applied: the reference gets its target, each log an entry or none at all. Everything
else stays. -/
def apply (refs : References) (view before : StoreView) (edit : RefEdit) (plan : Plan) : StoreView := fun root =>
  let next := (before root).last + 1
  { refs := fun name =>
      if root = directory refs plan.name ∧ name = plan.name.bytes then
        edit.target.map (fun target => ⟨.ofRefName plan.name, next, some target, none⟩)
      else (view root).refs name
    logs := fun name index =>
      if ∃ log ∈ plan.logged, root = directory refs log ∧ name = log.bytes then
        match edit.reflog.appendFields with
        | some (committer, message) =>
          if index = next then some (logValue plan.old plan.new committer message)
          else (view root).logs name index
        | none => none
      else (view root).logs name index
    last :=
      if root = directory refs plan.name ∨ ∃ log ∈ plan.logged, root = directory refs log then next
      else (view root).last }

/-- All edits of a batch applied to the view they were planned in. -/
def applyAll (refs : References) (before : StoreView) (plans : List (RefEdit × Plan)) : StoreView :=
  plans.foldl (fun view p => view.apply refs before p.1 p.2) before

end StoreView

end Girt.Refs.Reftable
