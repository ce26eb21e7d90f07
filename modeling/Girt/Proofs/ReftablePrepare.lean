import Girt.Proofs.ReftableView

/-!
# Prepared batches

A prepared batch builds, for each stack, a table that turns the view of the stack into the view
with the edits applied.
-/

namespace Girt.Proofs

open ByteLib Girt.Refs Girt.Refs.Reftable List

variable {used used' : OrdMap Bytes Unit} {old : ObjectId} {base : Bytes → UInt64 → Option LogValue}

section Overlay

def overlayRefs (base : Bytes → Option RefRecord) (recs : List RefRecord) : Bytes → Option RefRecord :=
  recs.foldl (fun f r name => if name = r.key then Option.guard (fun r => r.target.isSome) r else f name) base

def overlayLogs (base : Bytes → UInt64 → Option LogValue) (recs : List LogRecord) :
    Bytes → UInt64 → Option LogValue :=
  recs.foldl (fun f r name index =>
    if name = r.name.bytes ∧ index = r.updateIndex then r.value else f name index) base

lemma overlayRefs_append (base : Bytes → Option RefRecord) (l₁ l₂ : List RefRecord) :
    overlayRefs base (l₁ ++ l₂) = overlayRefs (overlayRefs base l₁) l₂ :=
  foldl_append

lemma overlayLogs_append (base : Bytes → UInt64 → Option LogValue) (l₁ l₂ : List LogRecord) :
    overlayLogs base (l₁ ++ l₂) = overlayLogs (overlayLogs base l₁) l₂ :=
  foldl_append

lemma overlayLogs_none {recs : List LogRecord} {name : Bytes} {index : UInt64} (h : ∀ r ∈ recs, r.value = none) :
    overlayLogs base recs name index =
      if ∃ r ∈ recs, name = r.name.bytes ∧ index = r.updateIndex then none else base name index := by
  induction recs generalizing base with
  | nil => simp [overlayLogs]
  | cons r recs ih =>
    obtain ⟨hfirst, hrest⟩ := forall_mem_cons.mp h
    change overlayLogs _ recs name index = _
    rw [ih hrest]
    dsimp only
    by_cases hhere : name = r.name.bytes ∧ index = r.updateIndex
    · rw [if_pos hhere, hfirst, ite_self, if_pos ⟨r, .head _, hhere⟩]
    · simp only [exists_mem_cons_iff, hhere, false_or, if_false]

lemma mergedView_insertAll (references : OrdMap Bytes RefRecord) (logs : OrdMap LogKey LogRecord)
    (newRefs : List RefRecord) (newLogs : List LogRecord) (last last' : UInt64) :
    mergedView (references.insertAll (newRefs.map (fun r => (r.key, r))))
        (logs.insertAll (newLogs.map (fun r => (r.key, r)))) last' =
      ⟨overlayRefs (mergedView references logs last).refs newRefs,
        overlayLogs (mergedView references logs last).logs newLogs, last'⟩ := by
  apply StackView.ext
  · induction newRefs generalizing references with
    | nil => rfl
    | cons r newRefs ih =>
      have hstep : (mergedView (references.insert r.key r) logs last).refs =
          fun name => if name = r.key then Option.guard (·.target.isSome) r
            else (mergedView references logs last).refs name := by
        funext name
        simp only [mergedView, OrdMap.get_insert]
        split_ifs
        · rfl
        · rfl
      have hrest := ih (references.insert r.key r)
      rw [hstep] at hrest
      exact hrest
  · induction newLogs generalizing logs with
    | nil => rfl
    | cons r newLogs ih =>
      have hstep : (mergedView references (logs.insert r.key r) last).logs =
          fun name index => if name = r.name.bytes ∧ index = r.updateIndex then r.value
            else (mergedView references logs last).logs name index := by
        funext name index
        have hkey : entryKey name index = r.key ↔ name = r.name.bytes ∧ index = r.updateIndex := entryKey_inj
        simp only [mergedView, OrdMap.get_insert, hkey]
        split_ifs
        · rfl
        · rfl
      have hrest := ih (logs.insert r.key r)
      rw [hstep] at hrest
      exact hrest
  · rfl

end Overlay

section Groups

variable (refs : References) (reflog : Reflog) (g : Group)

def groupFrame : Path × Snapshot × ObjectFormat × UInt64 × UInt64 × Bytes :=
  (g.root, g.snapshot, g.table.format, g.table.minUpdateIndex, g.table.maxUpdateIndex, g.bytes)

/-- The log records a policy adds for one name. -/
def newRecords (snap : Snapshot) (next : UInt64) (reflog : Reflog) (old new : ObjectId) (name : RefName) :
    List LogRecord :=
  match reflog with
  | .append committer message | .appendIfChanged committer message
  | .appendExistingIfChanged committer message =>
    [⟨.ofRefName name, next, some (logValue old new committer message)⟩]
  | .delete =>
    (snap.table.logs.filter (fun record => record.name.bytes = name.bytes && record.value.isSome)).map
      (fun record => ⟨.ofRefName name, record.updateIndex, none⟩)
  | .preserve => []

lemma pushLog_frame (reflog : Reflog) (old new : ObjectId) (name : RefName) :
    groupFrame (g.pushLog reflog old new name) = groupFrame g := by
  cases reflog <;> rfl

lemma pushLog_table (reflog : Reflog) (old new : ObjectId) (name : RefName) :
    (g.pushLog reflog old new name).table.references = g.table.references ∧
      (g.pushLog reflog old new name).table.logs =
        g.table.logs ++ newRecords g.snapshot g.table.maxUpdateIndex reflog old new name := by
  cases reflog <;> simp [Group.pushLog, newRecords, Group.tombstones]

/-- The part of a batch of log changes that concerns one group. -/
def logGroup (old new : ObjectId) (logged : List RefName) (g : Group) : Group :=
  logged.foldl (fun g name => if g.root = directory refs name then g.pushLog reflog old new name else g) g

lemma foldl_updateGroup (old new : ObjectId) (logged : List RefName)
    (grps : List Group) :
    logged.foldl (fun grps name =>
      updateGroup (directory refs name) (·.pushLog reflog old new name) grps) grps =
      grps.map (logGroup refs reflog old new logged) := by
  induction logged generalizing grps with
  | nil => exact (map_id grps).symm
  | cons name logged ih =>
    rw [foldl_cons, ih, updateGroup, map_map]
    rfl

lemma logGroup_spec (old new : ObjectId) (logged : List RefName) (g : Group) :
    groupFrame (logGroup refs reflog old new logged g) = groupFrame g ∧
      (logGroup refs reflog old new logged g).table.references = g.table.references ∧
      (logGroup refs reflog old new logged g).table.logs = g.table.logs ++
        (logged.filter (g.root = directory refs ·)).flatMap
          (newRecords g.snapshot g.table.maxUpdateIndex reflog old new) := by
  induction logged generalizing g with
  | nil => simp [logGroup]
  | cons name logged ih =>
    by_cases hroot : g.root = directory refs name
    · have hframe := pushLog_frame g reflog old new name
      obtain ⟨href, hlog⟩ := pushLog_table g reflog old new name
      obtain ⟨ihframe, ihref, ihlog⟩ := ih (g.pushLog reflog old new name)
      have hfield := hframe
      simp only [groupFrame, Prod.mk.injEq] at hfield
      have hstep : logGroup refs reflog old new (name :: logged) g =
          logGroup refs reflog old new logged (g.pushLog reflog old new name) := by
        simp [logGroup, hroot]
      rw [hstep]
      refine ⟨ihframe.trans hframe, ihref.trans href, ?_⟩
      rw [ihlog, hlog, hfield.1, hfield.2.1, hfield.2.2.2.2.1]
      simp [hroot]
    · have hstep : logGroup refs reflog old new (name :: logged) g = logGroup refs reflog old new logged g := by
        simp [logGroup, hroot]
      rw [hstep, filter_cons_of_neg (by simpa using hroot)]
      exact ih g

/-- What one edit makes of a group. -/
def editGroup (edit : RefEdit) (name : RefName) (logged : List RefName) (old new : ObjectId)
    (g : Group) : Group :=
  logGroup refs edit.reflog old new logged
    (if g.root = directory refs name then g.pushReference name edit.target else g)

lemma editGroup_spec (edit : RefEdit) (name : RefName) (logged : List RefName)
    (old new : ObjectId) (g : Group) :
    groupFrame (editGroup refs edit name logged old new g) = groupFrame g ∧
      (editGroup refs edit name logged old new g).table.references = g.table.references ++
        (if g.root = directory refs name then
          [⟨.ofRefName name, g.table.maxUpdateIndex, edit.target, none⟩] else []) ∧
      (editGroup refs edit name logged old new g).table.logs = g.table.logs ++
        (logged.filter (g.root = directory refs ·)).flatMap
          (newRecords g.snapshot g.table.maxUpdateIndex edit.reflog old new) := by
  unfold editGroup
  by_cases hroot : g.root = directory refs name
  · rw [if_pos hroot, if_pos hroot]
    exact logGroup_spec refs edit.reflog old new logged (g.pushReference name edit.target)
  · rw [if_neg hroot, if_neg hroot, append_nil]
    exact logGroup_spec refs edit.reflog old new logged g

end Groups

section Values

variable {refs : References} {view : StoreView} {vals : OrdMap Bytes Target}
variable {chain : List RefName}
variable {name : RefName}

/-- The values of a batch are the targets of a view. -/
def Agrees (refs : References) (view : StoreView) (vals : OrdMap Bytes Target) : Prop :=
  ∀ name : RefName, vals.get name.bytes = view.target refs name

lemma link_eq_some (h : Agrees refs view vals) {next : RefName} :
    view.link refs name = some next ↔ vals.get name.bytes = some (.symbolic next) := by
  rw [h name, StoreView.link]
  rcases view.target refs name with _ | _ | _ <;> simp

lemma resolveFrom_chain (h : Agrees refs view vals) {res : List RefName} {cur : RefName}
    (hres : resolveFrom vals chain cur = .ok res) :
    ∃ l, res = chain ++ l ∧ Links.Chain (view.link refs) cur l := by
  fun_induction resolveFrom vals chain cur with
  | case1 | case2 => cases hres
  | case3 chain cur hfr next hnext hdep ih =>
    obtain ⟨l, hl, hch⟩ := ih hres
    refine ⟨cur :: l, by rw [hl, append_assoc]; rfl, ?_⟩
    exact .step ((link_eq_some h).mpr hnext) hch
  | case4 chain cur hfr hstop =>
    cases hres
    refine ⟨[cur], rfl, .stop ?_⟩
    cases hlink : view.link refs cur with
    | none => rfl
    | some next => exact absurd ((link_eq_some h).mp hlink) (hstop next)

lemma resolve_chain (h : Agrees refs view vals)
    (hres : resolve vals name = .ok chain) : Links.Chain (view.link refs) name chain := by
  obtain ⟨l, rfl, hch⟩ := resolveFrom_chain h hres
  exact hch

lemma terminalId_resolves (h : Agrees refs view vals) (hne : chain ≠ []) :
    view.Resolves refs chain (terminalId vals chain refs.format) := by
  obtain ⟨final, hfin⟩ := Option.isSome_iff_exists.mp (getLast?_isSome.mpr hne)
  refine ⟨final, hfin, ?_⟩
  unfold terminalId StoreView.objectAt
  have hval := h final
  rw [hfin, Option.bind_some]
  cases htarg : view.target refs final with
  | none =>
    rw [htarg] at hval
    simp only [hval]
  | some tgt =>
    rw [htarg] at hval
    cases tgt <;> simp only [hval]

lemma foldlM_claimName {overlap : String} {names : List RefName}
    (h : names.foldlM (claimName overlap) used = .ok used') :
    (∀ name ∈ names, used.get name.bytes = none) ∧
      ∀ k, used'.get k = none ↔ used.get k = none ∧ ∀ name ∈ names, name.bytes ≠ k := by
  apply OrdMap.foldlM_fresh (fun m name m' hcla => ?_) h
  simp only [claimName, bind_ok, reject_ok] at hcla
  obtain ⟨-, hfree, hcla⟩ := hcla
  cases hcla
  exact ⟨by simpa [OrdMap.contains] using hfree, (), rfl⟩

end Values

section Opened

variable {codec : Codec} {refs : References} {store : Stacks} {pre : StoreView} {grps : List Group}

/-- The groups of a batch: one for each stack, read from the store, with a table after the latest
update. -/
structure Opened (codec : Codec) (refs : References) (store : Stacks) (pre : StoreView) (grps : List Group) :
    Prop where
  roots : grps.map Group.root = directories refs
  snapshots : ∀ g ∈ grps, g.snapshot.table.view = pre g.root ∧
    Snapshot.read codec (store g.root) refs.format refs.limits = .ok g.snapshot
  tables : ∀ g ∈ grps, g.table.format = refs.format ∧ g.table.minUpdateIndex = (pre g.root).last + 1 ∧
    g.table.maxUpdateIndex = (pre g.root).last + 1 ∧ (pre g.root).last.toNat + 1 < 2 ^ 64 ∧ g.bytes = []

lemma directory_mem (refs : References) (name : RefName) :
    directory refs name ∈ directories refs := by
  refine mem_map.mpr ⟨(directory refs name, ()), OrdMap.mem_entries.mpr ?_, rfl⟩
  change ((OrdMap.empty.insert (stackPath refs.commonDir) ()).insert (stackPath refs.gitDir) ()).get _ = _
  unfold directory
  split_ifs <;> simp [OrdMap.get_insert]

lemma directories_nodup (refs : References) : (directories refs).Nodup := by
  unfold directories
  rw [nodup_iff_pairwise_ne, pairwise_map]
  exact (OrdMap.sorted _).imp (·.ne)

lemma visible_eq_some {root : Path} {record : RefRecord} {key : Bytes} {target : Target} :
    visible refs root record = some (key, target) ↔ ∃ name : RefName, name.bytes = key ∧
      record.name.bytes = key ∧ record.target = some target ∧ directory refs name = root := by
  simp only [visible, Option.bind_eq_bind, Option.bind_eq_some_iff, RecordName.referenceName]
  constructor
  · rintro ⟨name, hname, stored, htarg, h⟩
    split_ifs at h with hroot
    cases h
    exact ⟨name, rfl, (RefName.new_eq_some hname).symm, htarg, hroot⟩
  · rintro ⟨name, rfl, hname, htarg, hroot⟩
    exact ⟨name, by rw [hname, RefName.new_bytes], target, htarg, by rw [if_pos hroot]⟩

variable (h : Opened codec refs store pre grps)
include h

lemma Opened.read {g : Group} (hg : g ∈ grps) :
    g.snapshot.table.view = pre g.root ∧
      ∃ files merge, ReadFrom codec refs.format refs.limits (store g.root) g.snapshot files merge :=
  ⟨(h.snapshots g hg).1, readFrom (h.snapshots g hg).2⟩

lemma Opened.map {f : Group → Group}
    (hf : ∀ g, groupFrame (f g) = groupFrame g) : Opened codec refs store pre (grps.map f) := by
  simp only [groupFrame, Prod.mk.injEq] at hf
  refine ⟨?_, forall_mem_map.mpr fun g hg => ?_, forall_mem_map.mpr fun g hg => ?_⟩
  · rw [← h.roots, map_map]
    exact map_congr_left (fun g _ => (hf g).1)
  · rw [(hf g).1, (hf g).2.1]
    exact h.snapshots g hg
  · obtain ⟨hroot, -, hform, hmin, hmax, hbs⟩ := hf g
    rw [hroot, hform, hmin, hmax, hbs]
    exact h.tables g hg

lemma Opened.find (name : RefName) :
    ∃ g ∈ grps, g.root = directory refs name ∧
      grps.find? (·.root = directory refs name) = some g := by
  have hmem : directory refs name ∈ grps.map Group.root := by
    rw [h.roots]
    exact directory_mem refs name
  obtain ⟨g, hg, hroot⟩ := mem_map.mp hmem
  have hfind : (grps.find? (·.root = directory refs name)).isSome :=
    find?_isSome.mpr ⟨g, hg, decide_eq_true hroot⟩
  obtain ⟨g', hfind⟩ := Option.isSome_iff_exists.mp hfind
  exact ⟨g', mem_of_find?_eq_some hfind, by simpa using find?_some hfind, hfind⟩

lemma Opened.hasLog (name : RefName) : Reftable.hasLog refs grps name ↔ pre.hasLog refs name := by
  obtain ⟨g, hg, hroot, hfind⟩ := h.find name
  obtain ⟨hview, files, merge, hread⟩ := h.read hg
  unfold Reftable.hasLog StoreView.hasLog Group.hasLog
  rw [hfind, Option.any_some, ← hroot, ← hview]
  simp only [any_eq_true, Bool.and_eq_true, decide_eq_true_eq, Option.isSome_iff_exists]
  constructor
  · rintro ⟨r, hr, hname, val, hval⟩
    exact ⟨r.updateIndex, val, hread.logs_eq_some.mpr ⟨r, hr, hname, rfl, hval⟩⟩
  · rintro ⟨idx, val, hval⟩
    obtain ⟨r, hr, hname, -, hval⟩ := hread.logs_eq_some.mp hval
    exact ⟨r, hr, hname, val, hval⟩

lemma Opened.agrees : Agrees refs pre (currentValues refs grps) := by
  let entries := grps.flatMap (fun g => g.snapshot.table.references.filterMap (visible refs g.root))
  have hmem : ∀ (name : RefName) target, (name.bytes, target) ∈ entries ↔
      pre.target refs name = some target := by
    intro name target
    simp only [entries, mem_flatMap, mem_filterMap, visible_eq_some, StoreView.target,
      Option.bind_eq_some_iff]
    constructor
    · rintro ⟨g, hg, r, hr, name', hbs, hname, htarg, hroot⟩
      obtain rfl : name' = name := RefName.ext hbs
      obtain ⟨hview, files, merge, hread⟩ := h.read hg
      refine ⟨r, ?_, htarg⟩
      rw [hroot, ← hview]
      exact hread.refs_eq_some.mpr ⟨hr, hname, by rw [htarg]; rfl⟩
    · rintro ⟨r, hr, htarg⟩
      obtain ⟨g, hg, hroot, -⟩ := h.find name
      obtain ⟨hview, files, merge, hread⟩ := h.read hg
      rw [← hroot, ← hview] at hr
      obtain ⟨hrec, hname, -⟩ := hread.refs_eq_some.mp hr
      exact ⟨g, hg, r, hrec, name, rfl, hname, htarg, hroot.symm⟩
  have hfun : OrderedMap.Functional entries := by
    rintro ⟨key, target⟩ he ⟨key', target'⟩ he' heq
    subst heq
    have hkey : ∃ name : RefName, name.bytes = key := by
      simp only [entries, mem_flatMap, mem_filterMap, visible_eq_some] at he
      obtain ⟨g, -, r, -, name, hbs, -⟩ := he
      exact ⟨name, hbs⟩
    obtain ⟨name, rfl⟩ := hkey
    rw [hmem] at he he'
    exact Option.some.inj (he.symm.trans he')
  intro name
  apply Option.ext
  intro target
  change ((OrdMap.empty : OrdMap Bytes Target).insertAll entries).get name.bytes = some target ↔ _
  rw [OrdMap.get_insertAll_eq_some _ hfun, ← hmem name target]
  simp

end Opened

section Namespace

variable {ν : Type} {keys : OrdMap Bytes ν} {name : Bytes}

lemma contains_eq_true {k : Bytes} : keys.contains k ↔ ∃ v, keys.get k = some v := by
  rw [OrdMap.contains, Option.isSome_iff_exists]

lemma hasAncestor_iff :
    hasAncestor keys name ↔ ∃ k v, keys.get k = some v ∧ k ++ [slash] <+: name := by
  simp only [hasAncestor, any_eq_true, mem_range, Bool.and_eq_true, decide_eq_true_eq, contains_eq_true]
  constructor
  · rintro ⟨idx, hlt, hsl, v, hget⟩
    refine ⟨name.take idx, v, hget, name.drop (idx + 1), ?_⟩
    have hcut : name = name.take idx ++ (slash :: name.drop (idx + 1)) := by
      obtain ⟨h, hval⟩ := List.getElem?_eq_some_iff.mp hsl
      rw [← hval, ← drop_eq_getElem_cons h, take_append_drop]
    rw [append_assoc]
    exact hcut.symm
  · rintro ⟨k, v, hget, rest, rfl⟩
    refine ⟨k.length, by simp, by simp, v, ?_⟩
    rw [append_assoc, take_left]
    exact hget

lemma hasDescendant_iff :
    hasDescendant keys name ↔ ∃ k v, keys.get k = some v ∧ name ++ [slash] <+: k := by
  unfold hasDescendant
  constructor
  · intro h
    split at h
    · cases h
    rename_i ent rest hrg
    have hmem : ent ∈ keys.rangeFrom (name ++ [slash]) := by
      rw [hrg]
      exact .head _
    exact ⟨ent.1, ent.2, (OrdMap.mem_rangeFrom.mp hmem).2, isPrefixOf_iff_prefix.mp h⟩
  · rintro ⟨k, v, hget, hlow⟩
    have hle : name ++ [slash] ≤ k := le_of_isPrefix hlow
    have hmem : (k, v) ∈ keys.rangeFrom (name ++ [slash]) := OrdMap.mem_rangeFrom.mpr ⟨hle, hget⟩
    split
    · rename_i hrg
      rw [hrg] at hmem
      cases hmem
    rename_i ent rest hrg
    have hfirst : ent ∈ keys.rangeFrom (name ++ [slash]) := by
      rw [hrg]
      exact .head _
    rw [List.isPrefixOf_iff_prefix]
    exact isPrefix_of_le_of_le (OrdMap.mem_rangeFrom.mp hfirst).1
      (OrdMap.head_rangeFrom_le hrg hle hget) hlow

lemma not_conflict {refs : References} {view : StoreView} {vals : OrdMap Bytes Target}
    {name other : RefName}
    (ha : Agrees refs view vals) (h : namespaceConflict name vals used = false)
    (hkn : view.target refs other ≠ none ∨ used.get other.bytes ≠ none) :
    ¬ Ancestor name other ∧ ¬ Ancestor other name := by
  have hfree : ∀ {ν : Type} {keys : OrdMap Bytes ν}, hasAncestor keys name.bytes = false →
      hasDescendant keys name.bytes = false → keys.get other.bytes ≠ none →
      ¬ Ancestor name other ∧ ¬ Ancestor other name := by
    intro ν keys habo hlow hne
    obtain ⟨v, hv⟩ := Option.ne_none_iff_exists'.mp hne
    exact ⟨fun hanc => Bool.false_ne_true (hlow.symm.trans (hasDescendant_iff.mpr ⟨_, v, hv, hanc⟩)),
      fun hanc => Bool.false_ne_true (habo.symm.trans (hasAncestor_iff.mpr ⟨_, v, hv, hanc⟩))⟩
  simp only [namespaceConflict, Bool.or_eq_false_iff] at h
  obtain ⟨⟨⟨hval, huse⟩, hvlB⟩, husd⟩ := h
  rcases hkn with hlive | hused
  · exact hfree hval hvlB (ha other ▸ hlive)
  · exact hfree huse husd hused

end Namespace

section Edit

variable {refs : References} {pre acc : StoreView} {vals : OrdMap Bytes Target} {edit : RefEdit}
variable {next : UInt64} {chain : List RefName} {new : ObjectId} {snap : Snapshot} {codec : Codec} {plan : Plan}
variable {name : RefName} {batch batch' : Batch} {store : Stacks} {root : Path}
variable {grps : List Group} {reflog : Reflog} {committer : Signature} {format : ObjectFormat}
  {limits : StackLimits} {dir : StackDir} {files : List Bytes} {merge : Merge}

lemma chain_ne_nil {next : RefName → Option RefName} {l : List RefName}
    (h : Links.Chain next name l) : l ≠ [] ∧ name ∈ l := by
  cases h <;> simp

lemma chainFor_spec (h : Agrees refs pre vals) (hch : chainFor vals edit = .ok chain) :
    (if edit.dereference = .follow ∨ edit.reflog.appendFields.isSome
      then Links.Chain (pre.link refs) edit.name chain else chain = [edit.name]) ∧
      chain ≠ [] ∧ edit.name ∈ chain := by
  unfold chainFor at hch
  split_ifs at hch with hcond
  · have hlin := resolve_chain h hch
    rw [if_pos hcond]
    exact ⟨hlin, chain_ne_nil hlin⟩
  · cases hch
    rw [if_neg hcond]
    simp

lemma destination_spec (hne : chain ≠ []) (hmem : edit.name ∈ chain) :
    (some (destination edit chain) = if edit.dereference = .follow then chain.getLast? else some edit.name) ∧
      destination edit chain ∈ chain := by
  unfold destination
  split_ifs with hfol
  · obtain ⟨final, hfin⟩ := Option.isSome_iff_exists.mp (getLast?_isSome.mpr hne)
    rw [hfin]
    exact ⟨rfl, mem_of_getLast? hfin⟩
  · exact ⟨rfl, hmem⟩

lemma newId_spec (h : Agrees refs pre vals) (hnew : newId refs vals edit chain used = .ok (new, used')) :
    (∀ k, used'.get k = none → used.get k = none) ∧ (edit.reflog.appendFields.isSome → match edit.target with
      | none => new = ObjectId.null refs.format
      | some (.direct id) => new = id
      | some (.symbolic tgt) =>
        ∃ chain, Links.Chain (pre.link refs) tgt chain ∧ pre.Resolves refs chain new) := by
  unfold newId at hnew
  split at hnew
  · rename_i id htarg
    cases hnew
    rw [htarg]
    exact ⟨fun _ hk => hk, fun _ => rfl⟩
  · rename_i htarg
    cases hnew
    rw [htarg]
    exact ⟨fun _ hk => hk, fun _ => rfl⟩
  · rename_i tgt htarg
    split_ifs at hnew with happ
    · simp only [bind_ok] at hnew
      obtain ⟨targetChain, hch, used₁, hcla, hnew⟩ := hnew
      cases hnew
      have hlin := resolve_chain h hch
      rw [htarg]
      refine ⟨fun k hk => (((foldlM_claimName hcla).2 k).mp hk).1, fun _ => ⟨targetChain, hlin, ?_⟩⟩
      exact terminalId_resolves h (chain_ne_nil hlin).1
    · cases hnew
      exact ⟨fun _ hk => hk, fun hno => absurd hno happ⟩

lemma prepareEdit_eq_ok (h : prepareEdit refs vals batch edit = .ok batch') :
    ∃ chain used new, chainFor vals edit = .ok chain ∧
      edit.expected.admits (vals.get (destination edit chain).bytes) ∧
      chain.foldlM (claimName "overlapping reference operations") batch.used = .ok used ∧
      namespaceConflict (destination edit chain) vals used = false ∧
      newId refs vals edit chain used = .ok (new, batch'.used) ∧
      ∃ pushed, pushed = updateGroup (directory refs (destination edit chain))
          (fun g => g.pushReference (destination edit chain) edit.target) batch.groups ∧
        batch'.groups = batch.groups.map (editGroup refs edit (destination edit chain)
          (logNames refs vals pushed edit (destination edit chain) chain)
          (terminalId vals chain refs.format) new) := by
  simp only [prepareEdit, checkExpected, bind_ok, reject_ok, not_not] at h
  obtain ⟨chain, hch, -, hexp, used, hused, -, hcon, ⟨new, used'⟩, hnew, h⟩ := h
  cases h
  refine ⟨chain, used, new, hch, hexp, hused, by simpa using hcon, hnew, _, rfl, ?_⟩
  rw [foldl_updateGroup, updateGroup, map_map]
  rfl

lemma logNames_spec {codec : Codec} (ho : Opened codec refs store pre grps)
    (ha : Agrees refs pre vals) {chain : List RefName} (hname : name ∈ chain) (old new : ObjectId) :
    (∀ log ∈ logNames refs vals grps edit name chain, log ∈ chain) ∧
      Plan.Logs refs pre edit ⟨chain, name, logNames refs vals grps edit name chain, old, new⟩ := by
  have hpol : ∀ log ∈ policyNames vals edit name chain, log ∈ chain := by
    intro log hlog
    unfold policyNames at hlog
    split at hlog <;> (try split_ifs at hlog) <;> simp_all
  constructor
  · intro log hlog
    unfold logNames at hlog
    split_ifs at hlog
    · exact hpol log (mem_filter.mp hlog).1
    · exact hpol log hlog
  · unfold Plan.Logs logNames policyNames
    cases href : edit.reflog with
    | preserve | delete | append committer msg => rfl
    | appendIfChanged committer msg =>
      simp [Reflog.onlyExisting, ha name]
    | appendExistingIfChanged committer msg =>
      simp only [Reflog.onlyExisting, if_true, ha name]
      intro log
      rw [mem_filter, ho.hasLog]
      by_cases hsame : pre.target refs name = edit.target
      · simp [hsame]
      · simp [hsame]

/-- The tables built so far turn the view before the batch into the view after its first edits;
what no edit depends on is as before, and no edit puts a name below another. -/
structure BatchInv (refs : References) (pre acc : StoreView) (batch : Batch) : Prop where
  built : ∀ g ∈ batch.groups, acc g.root = ⟨overlayRefs (pre g.root).refs g.table.references,
    overlayLogs (pre g.root).logs g.table.logs,
    if g.table.references = [] ∧ g.table.logs = [] then (pre g.root).last else (pre g.root).last + 1⟩
  unused : ∀ name : RefName, batch.used.get name.bytes = none →
    (acc (directory refs name)).logs name.bytes = (pre (directory refs name)).logs name.bytes ∧
      acc.target refs name = pre.target refs name
  separate : pre.PrefixFree refs → acc.PrefixFree refs

lemma newRecords_append {msg : Bytes} (h : reflog.appendFields = some (committer, msg))
    (name : RefName) :
    newRecords snap next reflog old new name =
      [⟨.ofRefName name, next, some (logValue old new committer msg)⟩] := by
  cases reflog <;> cases h <;> rfl

lemma overlayLogs_append_entries {message : Bytes}
    (h : reflog.appendFields = some (committer, message)) (logged : List RefName) (name : Bytes) (index : UInt64) :
    overlayLogs base (logged.flatMap (newRecords snap next reflog old new)) name index =
      if ∃ log ∈ logged, name = log.bytes then
        if index = next then some (logValue old new committer message) else base name index
      else base name index := by
  induction logged using reverseRecOn with
  | nil => simp [overlayLogs]
  | append_singleton logged log ih =>
    rw [flatMap_append, overlayLogs_append, flatMap_singleton, newRecords_append h]
    change (if name = log.bytes ∧ index = next then _ else _) = _
    simp only [ih, mem_append, mem_singleton, or_and_right, exists_or, exists_eq_left]
    by_cases hname : name = log.bytes <;> by_cases hidx : index = next <;> simp [hname, hidx]

lemma overlayLogs_tombstones
    (hread : ReadFrom codec format limits dir snap files merge) {log : RefName}
    (hbase : base log.bytes = snap.table.view.logs log.bytes) (name : Bytes) (index : UInt64) :
    overlayLogs base (newRecords snap next .delete old new log) name index =
      if name = log.bytes then none else base name index := by
  have hrecs : ∀ r, r ∈ newRecords snap next .delete old new log ↔
      ∃ value, snap.table.view.logs log.bytes r.updateIndex = some value ∧
        r = ⟨.ofRefName log, r.updateIndex, none⟩ := by
    intro r
    simp only [newRecords, mem_map, mem_filter, Bool.and_eq_true, decide_eq_true_eq,
      Option.isSome_iff_exists, hread.logs_eq_some]
    constructor
    · rintro ⟨stored, ⟨hsto, hname, value, hval⟩, rfl⟩
      exact ⟨value, ⟨stored, hsto, hname, rfl, hval⟩, rfl⟩
    · rintro ⟨value, ⟨stored, hsto, hname, hidx, hval⟩, hr⟩
      exact ⟨stored, ⟨hsto, hname, value, hval⟩, by rw [hr, hidx]⟩
  rw [overlayLogs_none]
  · by_cases hname : name = log.bytes
    · subst hname
      rw [if_pos rfl]
      split_ifs with hex
      · rfl
      cases hlive : snap.table.view.logs log.bytes index with
      | none => rw [hbase, hlive]
      | some value =>
        exact absurd ⟨⟨.ofRefName log, index, none⟩, (hrecs _).mpr ⟨value, hlive, rfl⟩, rfl, rfl⟩ hex
    · rw [if_neg hname, if_neg]
      rintro ⟨r, hr, rfl, -⟩
      obtain ⟨value, -, heq⟩ := (hrecs r).mp hr
      rw [heq] at hname
      exact hname rfl
  · intro r hr
    obtain ⟨value, -, heq⟩ := (hrecs r).mp hr
    rw [heq]

lemma apply_refs (plan : Plan) (root : Path) :
    (acc.apply refs pre edit plan root).refs = overlayRefs (acc root).refs
      (if root = directory refs plan.name then
        [⟨.ofRefName plan.name, (pre root).last + 1, edit.target, none⟩] else []) := by
  funext name
  by_cases hroot : root = directory refs plan.name
  · rw [if_pos hroot]
    change (if root = directory refs plan.name ∧ name = plan.name.bytes then _ else _) =
      if name = plan.name.bytes then _ else _
    by_cases hname : name = plan.name.bytes
    · rw [if_pos ⟨hroot, hname⟩, if_pos hname]
      cases edit.target <;> rfl
    · rw [if_neg (hname ·.2), if_neg hname]
  · rw [if_neg hroot]
    exact if_neg (hroot ·.1)

lemma logs_cases (h : plan.Logs refs pre edit) :
    edit.reflog.appendFields.isSome ∨ (edit.reflog = .preserve ∧ plan.logged = []) ∨
      edit.reflog = .delete ∧ plan.logged = [plan.name] := by
  unfold Plan.Logs at h
  cases href : edit.reflog <;> simp_all [Reflog.appendFields]

lemma apply_logs (hread : ReadFrom codec format limits dir snap files merge) (hplan : plan.Logs refs pre edit)
    (hbase : root = directory refs plan.name →
      (acc root).logs plan.name.bytes = snap.table.view.logs plan.name.bytes) :
    (acc.apply refs pre edit plan root).logs = overlayLogs (acc root).logs
      ((plan.logged.filter (root = directory refs ·)).flatMap
        (newRecords snap ((pre root).last + 1) edit.reflog plan.old plan.new)) := by
  funext name index
  rcases logs_cases hplan with happ | ⟨href, hlog⟩ | ⟨href, hlog⟩
  · obtain ⟨fields, hfield⟩ := Option.isSome_iff_exists.mp happ
    have hiff : (∃ log ∈ plan.logged.filter (root = directory refs ·), name = log.bytes) ↔
        ∃ log ∈ plan.logged, root = directory refs log ∧ name = log.bytes := by
      simp [mem_filter, and_assoc]
    rw [overlayLogs_append_entries hfield, if_congr hiff rfl rfl]
    simp only [StoreView.apply, hfield]
  · simp [StoreView.apply, hlog, overlayLogs]
  · simp only [StoreView.apply, href, hlog, Reflog.appendFields]
    by_cases hroot : root = directory refs plan.name
    · have hlist : ([plan.name].filter (root = directory refs ·)).flatMap
          (newRecords snap ((pre root).last + 1) .delete plan.old plan.new) =
          newRecords snap ((pre root).last + 1) .delete plan.old plan.new plan.name := by
        simp [← hroot]
      rw [hlist, overlayLogs_tombstones hread (hbase hroot)]
      simp [← hroot]
    · simp [hroot, overlayLogs]

lemma newRecords_eq_nil (hplan : plan.Logs refs pre edit) (hroot : root ≠ directory refs plan.name) :
    (plan.logged.filter (root = directory refs ·)).flatMap (newRecords snap next edit.reflog plan.old plan.new) = [] ↔
      ¬ ∃ log ∈ plan.logged, root = directory refs log := by
  rcases logs_cases hplan with happ | ⟨-, hlog⟩ | ⟨-, hlog⟩
  · obtain ⟨fields, hfield⟩ := Option.isSome_iff_exists.mp happ
    simp [newRecords_append hfield]
  · simp [hlog]
  · simp [hlog, hroot]

/-- A stack is touched exactly when its table has a record. -/
lemma apply_last {references : List RefRecord}
    {logs : List LogRecord} {last : UInt64} (hplan : plan.Logs refs pre edit)
    (hlast : (acc root).last = if references = [] ∧ logs = [] then last else next)
    (hbf : (pre root).last = last) (hnext : last + 1 = next) :
    (acc.apply refs pre edit plan root).last =
      if references ++ (if root = directory refs plan.name then
          [⟨.ofRefName plan.name, next, edit.target, none⟩] else []) = [] ∧
        logs ++ (plan.logged.filter (root = directory refs ·)).flatMap
          (newRecords snap next edit.reflog plan.old plan.new) = []
      then last else next := by
  change (if root = directory refs plan.name ∨ ∃ log ∈ plan.logged, root = directory refs log then
    (pre root).last + 1 else (acc root).last) = _
  by_cases hroot : root = directory refs plan.name
  · rw [if_pos (Or.inl hroot), if_pos hroot, if_neg (by simp), hbf, hnext]
  simp only [if_neg hroot, append_nil, append_eq_nil_iff, newRecords_eq_nil hplan hroot]
  by_cases hlog : ∃ log ∈ plan.logged, root = directory refs log
  · rw [if_pos (Or.inr hlog), if_neg (·.2.2 hlog), hbf, hnext]
  · rw [if_neg (by simp [hroot, hlog]), hlast]
    simp [hlog]

lemma apply_target_of_ne (h : name ≠ plan.name) :
    (acc.apply refs pre edit plan).target refs name = acc.target refs name := by
  unfold StoreView.target
  congr 1
  refine if_neg ?_
  rintro ⟨-, hbs⟩
  exact h (RefName.ext hbs)

lemma apply_prefixFree (hfree : acc.PrefixFree refs)
    (h : ∀ other, acc.target refs other ≠ none → ¬ Ancestor plan.name other ∧ ¬ Ancestor other plan.name) :
    (acc.apply refs pre edit plan).PrefixFree refs := by
  have hself : ∀ name : RefName, ¬ Ancestor name name := by
    intro name hlow
    have hlen := hlow.length_le
    simp at hlen
  intro a b ha hb
  by_cases hane : a = plan.name
  · by_cases hbne : b = plan.name
    · rw [hane, hbne]
      exact hself _
    · rw [apply_target_of_ne hbne] at hb
      rw [hane]
      exact (h b hb).1
  · rw [apply_target_of_ne hane] at ha
    by_cases hbne : b = plan.name
    · rw [hbne]
      exact (h a ha).2
    · rw [apply_target_of_ne hbne] at hb
      exact hfree a b ha hb

/-- One accepted edit is planned in the view before the batch and applied to the view so far. -/
lemma prepareEdit_step
    (ho : Opened codec refs store pre batch.groups) (ha : Agrees refs pre vals)
    (hi : BatchInv refs pre acc batch) (h : prepareEdit refs vals batch edit = .ok batch') :
    ∃ plan, Planned refs pre edit plan ∧ Opened codec refs store pre batch'.groups ∧
      BatchInv refs pre (acc.apply refs pre edit plan) batch' := by
  obtain ⟨chain, used, new, hch, hexp, hused, hcon, hnew, pushed, hpus, hgro⟩ :=
    prepareEdit_eq_ok h
  obtain ⟨hlin, hne, hself⟩ := chainFor_spec ha hch
  obtain ⟨hname, hmem⟩ := destination_spec hne hself
  obtain ⟨hmono, hnwS⟩ := newId_spec ha hnew
  obtain ⟨hfr, hcla⟩ := foldlM_claimName hused
  have hope : Opened codec refs store pre pushed := by
    rw [hpus]
    apply ho.map
    intro g
    split_ifs <;> rfl
  obtain ⟨hlogged, hlogs⟩ := @logNames_spec _ _ _ edit _ _ _ _ hope ha _ hmem
    (terminalId vals chain refs.format) new
  rw [ha] at hexp
  let plan : Plan := ⟨chain, destination edit chain,
    logNames refs vals pushed edit (destination edit chain) chain, terminalId vals chain refs.format, new⟩
  have hspec := editGroup_spec refs edit plan.name plan.logged plan.old plan.new
  refine ⟨plan, ⟨hlin, hname, hexp, hlogs, terminalId_resolves ha hne, hnwS⟩, ?_, ?_⟩
  · rw [hgro]
    exact ho.map (fun g => (hspec g).1)
  constructor
  · rw [hgro]
    refine forall_mem_map.mpr fun g hg => ?_
    have hfield : (editGroup refs edit plan.name plan.logged plan.old plan.new g).root = g.root :=
      congrArg Prod.fst (hspec g).1
    obtain ⟨hview, files, merge, hread⟩ := ho.read hg
    obtain ⟨hrefs, hhist, hlist⟩ := StackView.ext_iff.mp (hi.built g hg)
    dsimp only at hrefs hhist
    rw [hfield, (hspec g).2.1, (hspec g).2.2, overlayRefs_append, overlayLogs_append, (ho.tables g hg).2.2.1,
      ← hrefs, ← hhist]
    refine StackView.ext (apply_refs plan g.root) (apply_logs hread hlogs fun hroot => ?_)
      (apply_last hlogs hlist rfl rfl)
    rw [hview, hroot]
    exact (hi.unused plan.name (hfr plan.name hmem)).1
  · intro name hnone
    obtain ⟨hfree, hnot⟩ := (hcla name.bytes).mp (hmono _ hnone)
    obtain ⟨hhist, htar⟩ := hi.unused name hfree
    constructor
    · rw [← hhist]
      funext index
      refine if_neg ?_
      rintro ⟨log, hlog, -, hbs⟩
      exact hnot log (hlogged log hlog) hbs.symm
    · rw [← htar, apply_target_of_ne]
      rintro rfl
      exact hnot _ hmem rfl
  · intro hfree
    refine apply_prefixFree (hi.separate hfree) (fun other hoth => ?_)
    refine not_conflict ha hcon ?_
    by_cases hlive : pre.target refs other = none
    · refine Or.inr (fun hnone => hoth ?_)
      rw [(hi.unused other ((hcla _).mp hnone).1).2, hlive]
    · exact Or.inl hlive

lemma batchInv_start (htab : ∀ g ∈ grps, g.table.references = [] ∧ g.table.logs = []) :
    BatchInv refs pre pre ⟨grps, .empty, []⟩ := by
  refine ⟨fun g hg => ?_, fun name _ => ⟨rfl, rfl⟩, id⟩
  rw [if_pos (htab g hg), (htab g hg).1, (htab g hg).2]
  rfl

lemma prepareEdits_run {codec : Codec} {edits : List (RefEdit × Nat)}
    (ho : Opened codec refs store pre batch.groups) (ha : Agrees refs pre vals)
    (hi : BatchInv refs pre acc batch)
    (h : edits.foldlM (fun batch (edit, idx) =>
      wrapError (TransactionError.prepare (some idx)) (prepareEdit refs vals batch edit)) batch = .ok batch') :
    ∃ plans, List.Forall₂ (Planned refs pre) (edits.map Prod.fst) plans ∧
      Opened codec refs store pre batch'.groups ∧
      BatchInv refs pre (((edits.map Prod.fst).zip plans).foldl
        (fun view p => view.apply refs pre p.1 p.2) acc) batch' := by
  induction edits generalizing batch acc with
  | nil =>
    cases h
    exact ⟨[], .nil, ho, hi⟩
  | cons e edits ih =>
    rw [foldlM_cons, bind_ok] at h
    obtain ⟨next, hnext, h⟩ := h
    obtain ⟨plan, hplan, ho', hi'⟩ := prepareEdit_step ho ha hi (wrapError_eq_ok.mp hnext)
    obtain ⟨plans, hpla, ho'', hi''⟩ := ih ho' hi' h
    exact ⟨plan :: plans, .cons hplan hpla, ho'', hi''⟩

end Edit

end Girt.Proofs
