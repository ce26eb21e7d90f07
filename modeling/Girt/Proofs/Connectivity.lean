import Mathlib.Algebra.BigOperators.Group.Finset.Basic
import Mathlib.Algebra.Order.BigOperators.Group.Finset
import Mathlib.Data.Fintype.Sets
import Mathlib.Data.Finite.Prod
import Mathlib.Data.Set.Finite.List
import Girt.Fetch.Connectivity
import Girt.Lib.Graph

/-!
# Connectivity

The check accepts exactly when every edge that is followed leads to an object of the required kind, or to one
that the filter may leave out. The table of tree targets decides the same.
-/

namespace Girt.Fetch

open ByteLib GraphLib List
open TreeTargets (add)

section Verified

def structureOf (id : ObjectId) (object : Object) : Structure :=
  match objectEdges id object with
  | .error _ => .malformed
  | .ok edges => if object.kind = .tree then .tree else .edges edges

lemma record_objects (ver : VerifiedObjects) (entry : ObjectId × Object) :
    (ver.record entry).objects = ver.objects.insert entry.1 (structureOf entry.1 entry.2) := by
  unfold VerifiedObjects.record structureOf
  cases objectEdges entry.1 entry.2 with
  | error error => rfl
  | ok edges =>
    by_cases hkind : entry.2.kind = .tree
    · simp [hkind]
    · simp [hkind]

lemma verified_objects (ents : List (ObjectId × Object)) (ver : VerifiedObjects) :
    (ents.foldl VerifiedObjects.record ver).objects =
      ver.objects.insertAll (ents.map fun ent => (ent.1, structureOf ent.1 ent.2)) := by
  induction ents generalizing ver with
  | nil => rfl
  | cons ent ents ih =>
    rw [foldl_cons, ih, record_objects]
    rfl

variable {rcvd : ReceivedObjects} {id : ObjectId} {object : Object}

lemma functional_of_distinct (rcvd : ReceivedObjects) {a b : ObjectId × Object}
    (ha : a ∈ rcvd.entries) (hb : b ∈ rcvd.entries) (h : a.1 = b.1) : a = b :=
  inj_on_of_nodup_map rcvd.distinct ha hb h

lemma imported_eq_some : rcvd.imported id = some object ↔ (id, object) ∈ rcvd.entries := by
  have hkey : ∀ {entry}, rcvd.entries.find? (·.1 = id) = some entry → entry.1 = id := fun hfind => by
    simpa using find?_some hfind
  constructor
  · intro h
    obtain ⟨entry, hfind, rfl⟩ := Option.map_eq_some_iff.mp h
    exact hkey hfind ▸ mem_of_find?_eq_some hfind
  · intro h
    obtain ⟨entry, hfind⟩ : ∃ entry, rcvd.entries.find? (·.1 = id) = some entry :=
      Option.isSome_iff_exists.mp (find?_isSome.mpr ⟨_, h, by simp⟩)
    rw [ReceivedObjects.imported, hfind,
      functional_of_distinct rcvd (mem_of_find?_eq_some hfind) h (hkey hfind)]
    rfl

lemma verified_get (rcvd : ReceivedObjects) (id : ObjectId) :
    rcvd.verified.objects.get id = (rcvd.imported id).map (structureOf id) := by
  rw [ReceivedObjects.verified, verified_objects]
  cases hget : rcvd.imported id with
  | none =>
    rw [OrdMap.get_insertAll_of_not_mem]
    · rfl
    intro ent hen
    obtain ⟨fnd, hgot, rfl⟩ := mem_map.mp hen
    rintro rfl
    have hsome : rcvd.imported fnd.1 = some fnd.2 := imported_eq_some.mpr hgot
    rw [hget] at hsome
    cases hsome
  | some object =>
    have hmem := imported_eq_some.mp hget
    refine OrdMap.get_insertAll_of_mem _ ?_ (mem_map.mpr ⟨_, hmem, rfl⟩)
    intro a ha b hb hsame
    obtain ⟨x, hx, rfl⟩ := mem_map.mp ha
    obtain ⟨y, hy, rfl⟩ := mem_map.mp hb
    rw [functional_of_distinct rcvd hx hy hsame]

lemma provenTree_iff :
    rcvd.provenTree id ↔ ∃ object edges, rcvd.imported id = some object ∧ object.kind = .tree ∧
      objectEdges id object = .ok edges := by
  unfold ReceivedObjects.provenTree
  rw [verified_get]
  cases hget : rcvd.imported id with
  | none => simp
  | some object =>
    rw [Option.map_some, structureOf]
    cases hedg : objectEdges id object with
    | error error => simp [hedg]
    | ok edges =>
      by_cases hkind : object.kind = .tree
      · simp [hkind, hedg]
      · simp [hkind]

end Verified

section Targets

variable {edges : List (ObjectId × ObjectKind)} {edge : ObjectId × ObjectKind}
  {targets : TreeTargets} {object : Object}

lemma kind_of_tree_edge {id : ObjectId} (hkind : object.kind = .tree)
    (h : objectEdges id object = .ok edges) (hedge : edge ∈ edges) :
    edge.2 = .blob ∨ edge.2 = .tree := by
  unfold objectEdges at h
  simp only [hkind] at h
  split at h
  · cases h
  cases h
  obtain ⟨ent, -, hen⟩ := mem_filterMap.mp hedge
  unfold RawEntry.edge at hen
  split at hen <;> cases hen
  · exact .inr rfl
  all_goals exact .inl rfl

/-- What a table says of edges: it has all of them with their kinds, and only kinds of tree entries. -/
structure Covers (targets : TreeTargets) (edges : List (ObjectId × ObjectKind)) : Prop where
  mem : targets.unproven = false → ∀ edge ∈ edges, targets.kinds.get edge.1 = some edge.2
  kinds : ∀ id kind, targets.kinds.get id = some kind → kind = .blob ∨ kind = .tree

lemma covers_add (h : Covers targets edges) (hkind : edge.2 = .blob ∨ edge.2 = .tree) :
    Covers (targets.add edge) (edge :: edges) := by
  unfold add
  split
  · rename_i hnew
    constructor
    · intro hprev other hoth
      rw [OrdMap.get_insert]
      split_ifs with hsame
      · rcases mem_cons.mp hoth with rfl | hoth
        · rfl
        · have hold := h.mem hprev other hoth
          rw [hsame, hnew] at hold
          cases hold
      · rcases mem_cons.mp hoth with rfl | hoth
        · exact absurd rfl hsame
        · exact h.mem hprev other hoth
    · exact OrdMap.forall_insert h.kinds hkind
  · rename_i kind hold
    split_ifs with hdif
    · exact ⟨fun hprev => (by cases hprev), h.kinds⟩
    refine ⟨fun hprev other hoth => ?_, h.kinds⟩
    rcases mem_cons.mp hoth with rfl | hoth
    · rw [hold, not_not.mp hdif]
    · exact h.mem hprev other hoth

lemma covers_foldl {new : List (ObjectId × ObjectKind)} (h : Covers targets edges)
    (hkind : ∀ edge ∈ new, edge.2 = .blob ∨ edge.2 = .tree) :
    Covers (new.foldl add targets) (new.reverse ++ edges) := by
  induction new generalizing targets edges with
  | nil => exact h
  | cons edge new ih =>
    have hstep := ih (covers_add h (hkind edge (.head _))) fun other hoth =>
      hkind other (.tail _ hoth)
    simpa using hstep

lemma proven_of_add (h : (targets.add edge).unproven = false) : targets.unproven = false := by
  unfold add at h
  split at h
  · exact h
  · split_ifs at h
    exact h

lemma proven_of_foldl (h : (edges.foldl add targets).unproven = false) :
    targets.unproven = false := by
  induction edges generalizing targets with
  | nil => exact h
  | cons edge edges ih => exact proven_of_add (ih h)

/-- A tree could be read, and some edges have all of its own. -/
def Listed (edges : List (ObjectId × ObjectKind)) (entry : ObjectId × Object) : Prop :=
  entry.2.kind = .tree → ∃ own, objectEdges entry.1 entry.2 = .ok own ∧ own ⊆ edges

/-- The table after some objects: it covers the edges of their trees, all of which could be read. -/
def TableOf (trees : TreeTargets) (entries : List (ObjectId × Object)) : Prop :=
  ∃ edges, Covers trees edges ∧ (trees.unproven = false → ∀ entry ∈ entries, Listed edges entry)

lemma TableOf.record {ver : VerifiedObjects} {entries : List (ObjectId × Object)}
    (h : TableOf ver.trees entries) (entry : ObjectId × Object) :
    TableOf (ver.record entry).trees (entries ++ [entry]) := by
  obtain ⟨edges, hcov, htre⟩ := h
  simp only [TableOf, forall_mem_append, forall_mem_singleton]
  by_cases hkind : entry.2.kind = .tree
  · unfold VerifiedObjects.record
    cases hedg : objectEdges entry.1 entry.2 with
    | error error =>
      simp only [hkind, if_true]
      exact ⟨edges, ⟨fun hprev => (by cases hprev), hcov.kinds⟩, fun hprev => (by cases hprev)⟩
    | ok own =>
      simp only [hkind, if_true]
      have hst : Covers { ver.trees with edges := ver.trees.edges + own.length } edges :=
        ⟨hcov.mem, hcov.kinds⟩
      refine ⟨own.reverse ++ edges, covers_foldl hst fun edge hedge => kind_of_tree_edge hkind hedg hedge,
        fun hprev => ⟨fun other hoth htree => ?_, fun _ => ⟨own, hedg, fun edge hedge => ?_⟩⟩⟩
      · have hbf := proven_of_foldl hprev
        obtain ⟨found, hgot, hmem⟩ := htre hbf other hoth htree
        exact ⟨found, hgot, fun edge hedge => mem_append_right _ (hmem hedge)⟩
      · exact mem_append_left _ (mem_reverse.mpr hedge)
  · have hsame : (ver.record entry).trees = ver.trees := by
      unfold VerifiedObjects.record
      split <;> simp [hkind]
    rw [hsame]
    exact ⟨edges, hcov, fun hprev => ⟨htre hprev, fun htree => absurd htree hkind⟩⟩

lemma treeProof_eq_some {rcvd : ReceivedObjects} (h : rcvd.treeProof = some targets) :
    (∀ id object, rcvd.imported id = some object → object.kind = .tree → ∃ edges, objectEdges id object = .ok edges ∧
        ∀ edge ∈ edges, targets.kinds.get edge.1 = some edge.2) ∧
      ∀ id kind, targets.kinds.get id = some kind → kind = .blob ∨ kind = .tree := by
  have htab : TableOf rcvd.verified.trees rcvd.entries := by
    rw [ReceivedObjects.verified]
    induction rcvd.entries using reverseRecOn with
    | nil => exact ⟨[], ⟨by simp, fun id kind hget => by cases hget⟩, by simp⟩
    | append_singleton ents ent ih =>
      rw [foldl_append]
      exact ih.record ent
  unfold ReceivedObjects.treeProof at h
  split_ifs at h with hprev
  cases h
  rw [Bool.not_eq_true] at hprev
  obtain ⟨edges, hcov, htre⟩ := htab
  refine ⟨fun id object hget hkind => ?_, hcov.kinds⟩
  obtain ⟨own, hown, hmem⟩ := htre hprev (id, object) (imported_eq_some.mp hget) hkind
  exact ⟨own, hown, fun edge hedge => hcov.mem hprev edge (hmem hedge)⟩

end Targets

namespace Request

variable {req : Request} {state state' final : State} {pending : List ObjectId} {lim : FetchLimits}
  {object : Object} {commit : Bool} {proof : Option TreeTargets}

section Specification

variable (req)

def Present (id : ObjectId) : Prop := ∃ kind, req.kind id = .ok (some kind)

/-- Nothing is followed from a trusted known object, nor from a blob. -/
def Stops (id : ObjectId) : Prop :=
  (req.received.contains id = false ∧ req.known.trustedComplete id = true) ∨
    req.kind id = .ok (some .blob)

def isCommit (id : ObjectId) : Bool :=
  match req.kind id with
  | .ok kind => kind = some .commit
  | .error _ => false

/-- The parents of a shallow commit are not followed. -/
def Cut (id : ObjectId) (edge : ObjectId × ObjectKind) : Prop :=
  (req.isCommit id && id ∈ req.shallow) = true ∧ edge.2 = .commit

/-- An edge, of a commit or of another object, leads to an object of the required kind, or to one that
the filter may leave out. -/
def LeadsFrom (commit : Bool) (edge : ObjectId × ObjectKind) : Prop :=
  req.kind edge.1 = .ok (some edge.2) ∨ req.kind edge.1 = .ok none ∧ req.promised edge.2 commit = true

def Leads (id : ObjectId) (edge : ObjectId × ObjectKind) : Prop := req.LeadsFrom (req.isCommit id) edge

def Edge (id target : ObjectId) : Prop :=
  ¬ req.Stops id ∧ ∃ edges expected, req.edges id = .ok edges ∧ (target, expected) ∈ edges ∧
    ¬ req.Cut id (target, expected) ∧ req.Present target

def Reached : ObjectId → Prop := Reach req.Edge {id | id ∈ req.wants}

/-- An object is a boundary, or each of its edges that is followed leads somewhere. -/
def Sound (id : ObjectId) : Prop :=
  req.Stops id ∨ ∃ edges, req.edges id = .ok edges ∧ ∀ edge ∈ edges, ¬ req.Cut id edge → req.Leads id edge

/-- What connectivity means: the shallow commits are commits, the wanted objects are there, and so is
everything that is followed from them. -/
structure Connected : Prop where
  shallow : ∀ id ∈ req.shallow, ∃ object, req.lookup id = .ok (some object) ∧ object.kind = .commit
  wants : ∀ id ∈ req.wants, req.Present id
  sound : ∀ id, req.Reached id → req.Sound id

end Specification

section Steps

variable {state state' : State} {shallow : Bool}
variable {id : ObjectId}

def SeenSound (req : Request) (state : State) : Prop :=
  ∀ id kind, state.seen.get id = some kind → req.kind id = .ok (some kind)

lemma SeenSound.present (h : req.SeenSound state) (hid : state.seen.contains id = true) :
    req.Present id := by
  obtain ⟨kind, hkind⟩ := Option.isSome_iff_exists.mp hid
  exact ⟨kind, h id kind hkind⟩

/-- What is named and present is seen; what is new is pending, unless it may be passed over. -/
structure Grown (req : Request) (skip : ObjectId → Bool) (targets : List ObjectId) (state state' : State) : Prop where
  sound : req.SeenSound state'
  new : ∃ new, state'.pending = state.pending ++ new ∧ new.Nodup ∧
    (∀ id ∈ new, state.seen.contains id = false ∧ id ∈ targets ∧ req.Present id) ∧
    ∀ id, state'.seen.contains id = true ↔ state.seen.contains id = true ∨ id ∈ new ∨
      skip id = true ∧ id ∈ targets ∧ req.Present id
  targets : ∀ id ∈ targets, req.Present id → state'.seen.contains id = true
  dependencies : state'.dependencies = state.dependencies

variable {skip : ObjectId → Bool} {targets : List ObjectId}

lemma Grown.fresh (h : Grown req (fun _ => false) targets state state') :
    ∃ new, state'.pending = state.pending ++ new ∧ new.Nodup ∧
      (∀ id ∈ new, state.seen.contains id = false ∧ id ∈ targets ∧ req.Present id) ∧
      ∀ id, state'.seen.contains id = true ↔ state.seen.contains id = true ∨ id ∈ new := by
  simpa using h.new

lemma Grown.refl (h : req.SeenSound state) : Grown req skip [] state state :=
  ⟨h, ⟨[], by simp⟩, by simp, rfl⟩

lemma Grown.trans {first rest : List ObjectId} {middle : State}
    (h : Grown req skip first state middle) (h' : Grown req skip rest middle state') :
    Grown req skip (first ++ rest) state state' := by
  obtain ⟨new, hpen, hnd, hnew, hseen⟩ := h.new
  obtain ⟨new', hpen', hnd', hnew', hseen'⟩ := h'.new
  have hunseen : ∀ id ∈ new', ¬ (state.seen.contains id = true ∨ id ∈ new) := by
    intro id hid hold
    have hfresh := (hnew' id hid).1
    rw [(hseen id).mpr (by tauto)] at hfresh
    cases hfresh
  refine ⟨h'.sound, ⟨new ++ new', by rw [hpen', hpen, append_assoc], ?_, fun id hid => ?_, fun id => ?_⟩,
    fun id hid hpres => ?_, h'.dependencies.trans h.dependencies⟩
  · exact hnd.append hnd' fun id hid hid' => hunseen id hid' (.inr hid)
  · rcases mem_append.mp hid with hid | hid
    · obtain ⟨hfresh, htarget, hpres⟩ := hnew id hid
      exact ⟨hfresh, mem_append_left _ htarget, hpres⟩
    · obtain ⟨-, htarget, hpres⟩ := hnew' id hid
      exact ⟨Bool.not_eq_true _ ▸ fun hold => hunseen id hid (.inl hold), mem_append_right _ htarget, hpres⟩
  · rw [hseen', hseen, mem_append, mem_append]
    tauto
  · rcases mem_append.mp hid with hid | hid
    · exact (hseen' id).mpr (.inl (h.targets id hid hpres))
    · exact h'.targets id hid hpres

lemma Grown.charged {n : Nat} (h : Grown req skip targets { state with remaining := n } state') :
    Grown req skip targets state state' :=
  ⟨h.sound, h.new, h.targets, h.dependencies⟩

/-- Enters an object: one that is there and new is seen and pending. -/
def enter (req : Request) (skip : ObjectId → Bool) (state : State) (id : ObjectId) : State :=
  match state.seen.get id, req.kind id with
  | none, .ok (some kind) =>
    { state with seen := state.seen.insert id kind, pending := state.pending ++ if skip id then [] else [id] }
  | _, _ => state

lemma enter_remaining (state : State) (id : ObjectId) :
    (req.enter skip state id).remaining = state.remaining := by
  unfold enter
  split <;> rfl

lemma grown_enter (h : req.SeenSound state) (id : ObjectId) :
    Grown req skip [id] state (req.enter skip state id) := by
  unfold enter
  split
  · rename_i kind hfresh hkind
    have hcon : state.seen.contains id = false := by simp [OrdMap.contains, hfresh]
    have hpres : req.Present id := ⟨kind, hkind⟩
    refine ⟨OrdMap.forall_insert h hkind, ⟨if skip id then [] else [id], rfl, ?_,
      fun other hoth => ?_, fun other => ?_⟩,
      fun other hoth _ => ?_, rfl⟩
    · split <;> simp
    · split at hoth
      · cases hoth
      · rw [mem_singleton.mp hoth]
        exact ⟨hcon, mem_singleton.mpr rfl, hpres⟩
    · rw [OrdMap.contains_insert, mem_singleton]
      by_cases hid : other = id
      · cases hskip : skip id <;> simp [hid, hskip, hpres]
      · cases hskip : skip id <;> simp [hid]
    · rw [OrdMap.contains_insert]
      exact .inr (mem_singleton.mp hoth)
  · rename_i hnot
    have hold : req.Present id → state.seen.contains id = true := by
      rintro ⟨kind, hkind⟩
      by_contra hcon
      exact hnot kind (by simpa [OrdMap.contains] using hcon) hkind
    refine ⟨h, ⟨[], by simp, by simp, by simp, fun other => ?_⟩, by simpa using hold, rfl⟩
    simp only [not_mem_nil, false_or, mem_singleton, iff_self_or]
    rintro ⟨-, rfl, hpres⟩
    exact hold hpres

lemma not_present_of_none (h : req.kind id = .ok none) : ¬ req.Present id := by
  rintro ⟨kind, hkind⟩
  rw [h] at hkind
  cases hkind

lemma checkEdge_settled {edge : ObjectId × ObjectKind} (hsound : req.SeenSound state)
    (hcut : ¬ (shallow ∧ edge.2 = .commit)) :
    Settled (fun state' => LeadsFrom req commit edge ∧
        state' = req.enter (fun _ => false) { state with remaining := state.remaining - 1 } edge.1)
      (state.remaining = 0 ∨ ¬ LeadsFrom req commit edge) (req.checkEdge commit shallow state edge) := by
  rw [checkEdge, if_neg hcut, enter, LeadsFrom]
  refine settled_reject .inl fun _ => ?_
  cases hget : state.seen.get edge.1 with
  | some actual =>
    have hact := hsound _ _ hget
    by_cases hsame : actual = edge.2 <;> simp [Settled, hget, hact, hsame, reject, bind,
      Except.bind, pure, Except.pure]
  | none =>
    rcases hkind : req.kind edge.1 with error | (- | kind)
    · simp [Settled, hget, bind, Except.bind]
    · by_cases hpro : req.promised edge.2 commit <;> simp [Settled, hget, hpro, bind, Except.bind,
        pure, Except.pure]
    · by_cases hsame : kind = edge.2 <;> simp [Settled, hget, hsame, reject, bind, Except.bind,
        pure, Except.pure]

def followed (shallowCommit : Bool) (edges : List (ObjectId × ObjectKind)) : List (ObjectId × ObjectKind) :=
  edges.filter fun edge => ! (shallowCommit && edge.2 = .commit)

lemma checkEdges_settled {edges : List (ObjectId × ObjectKind)} (hsound : req.SeenSound state) : Settled
    (fun state' => ((∀ edge ∈ followed shallow edges, LeadsFrom req commit edge) ∧
      Grown req (fun _ => false) ((followed shallow edges).map Prod.fst) state state') ∧
      state.remaining ≤ state'.remaining + edges.length)
    (state.remaining < edges.length ∨ ¬ ∀ edge ∈ followed shallow edges, LeadsFrom req commit edge)
    (edges.foldlM (req.checkEdge commit shallow) state) := by
  induction edges generalizing state with
  | nil => exact ⟨⟨by simp [followed], .refl hsound⟩, le_rfl⟩
  | cons edge edges ih =>
    rw [foldlM_cons, length_cons]
    by_cases hcut : shallow ∧ edge.2 = .commit
    · have hskip : followed shallow (edge :: edges) = followed shallow edges := by
        simp [followed, hcut]
      rw [checkEdge, if_pos hcut, hskip]
      exact (ih hsound).mono (Or.imp_left Nat.lt_succ_of_lt) fun _ h => ⟨h.1, h.2.trans (Nat.le_succ _)⟩
    · have hkeep : followed shallow (edge :: edges) = edge :: followed shallow edges := by
        simp only [followed]
        rw [filter_cons_of_pos]
        cases shallow with
        | false => rfl
        | true => simpa using hcut
      rw [hkeep, forall_mem_cons]
      refine (checkEdge_settled hsound hcut).bind (Or.imp (by omega) (mt And.left)) ?_
      rintro _ ⟨hlea, rfl⟩
      have hrem := @enter_remaining req (fun _ => false)
        { state with remaining := state.remaining - 1 } edge.1
      have hgrown := @grown_enter req { state with remaining := state.remaining - 1 }
        (fun _ => false) hsound edge.1
      refine (ih hgrown.sound).mono (Or.imp (by rw [hrem]; simp only; omega) (mt And.right)) ?_
      rintro later ⟨⟨hlea', hgrown'⟩, hrem'⟩
      refine ⟨⟨⟨hlea, hlea'⟩, (hgrown.trans hgrown').charged⟩, ?_⟩
      rw [hrem] at hrem'
      simp only at hrem'
      omega

lemma mem_followed {edges : List (ObjectId × ObjectKind)} {edge : ObjectId × ObjectKind} :
    edge ∈ followed (req.isCommit id && id ∈ req.shallow) edges ↔
      edge ∈ edges ∧ ¬ req.Cut id edge := by
  rw [followed, mem_filter, Cut]
  cases req.isCommit id && decide (id ∈ req.shallow) <;> simp

/-- Nothing is read of an object where the walk stops, nor of a tree that the proof covers. -/
def Halts (req : Request) (proof : Bool) (id : ObjectId) : Prop :=
  req.Stops id ∨ proof = true ∧ req.received.provenTree id = true

/-- Each edge that is followed leads somewhere, and its target is seen when it is there. -/
def Read (req : Request) (seen : OrdMap ObjectId ObjectKind) (id : ObjectId) : Prop :=
  ∃ edges, req.edges id = .ok edges ∧ ∀ edge ∈ edges, ¬ req.Cut id edge →
    req.Leads id edge ∧ (req.Present edge.1 → seen.contains edge.1 = true)

lemma Read.mono {seen seen' : OrdMap ObjectId ObjectKind} (h : Read req seen id)
    (hseen : ∀ id, seen.contains id = true → seen'.contains id = true) : Read req seen' id := by
  obtain ⟨edges, hedg, hlea⟩ := h
  exact ⟨edges, hedg, fun edge hedge hcut => (hlea edge hedge hcut).imp_right fun hpres h =>
    hseen _ (hpres h)⟩

/-- A known object is a dependency of the received ones. -/
def noted (req : Request) (state : State) (id : ObjectId) : State :=
  { state with dependencies := state.dependencies ++ if req.received.contains id then [] else [id] }

lemma noted_eq (state : State) (id : ObjectId) :
    (if ! req.received.contains id then { state with dependencies := state.dependencies ++ [id] } else state) =
      req.noted state id := by
  cases hrec : req.received.contains id <;> simp [noted, hrec]

structure Expanded (req : Request) (proof : Bool) (id : ObjectId) (state state' : State) : Prop where
  grown : ∃ targets, Grown req (fun _ => false) targets (req.noted state id) state' ∧
    ∀ target ∈ targets, req.Present target → req.Edge id target
  edges : req.Halts proof id ∨ Read req state'.seen id

section Expand

variable {proof : Bool} {id : ObjectId}

lemma expand_stops (hpres : req.Present id) (h : req.Halts proof id) :
    req.expand proof state id = .ok (req.noted state id) := by
  obtain ⟨kind, hkind⟩ := hpres
  unfold expand
  simp only [noted_eq, hkind]
  split
  · rfl
  · rename_i htru
    refine bind_ok.mpr ⟨some kind, rfl, if_pos (h.imp_left ?_)⟩
    rintro (hkn | hblob)
    · exact absurd (by rw [hkn.1, hkn.2]; rfl) htru
    · rw [hkind] at hblob
      exact Except.ok.inj hblob

lemma expand_follows (hpres : req.Present id) (h : ¬ req.Halts proof id) :
    req.expand proof state id = req.edges id >>= fun edges => edges.foldlM
      (req.checkEdge (req.isCommit id) (req.isCommit id && id ∈ req.shallow)) (req.noted state id) := by
  obtain ⟨kind, hkind⟩ := hpres
  rw [Halts, not_or, Stops, not_or, hkind] at h
  obtain ⟨⟨hkn, hblob⟩, hprev⟩ := h
  unfold expand
  simp only [noted_eq, hkind]
  rw [if_neg (by simpa using hkn)]
  change (if some kind = some .blob ∨ _ then _ else _) = _
  rw [if_neg (by simpa [hprev] using hblob), isCommit, hkind]

def cost (req : Request) (id : ObjectId) : Nat :=
  match req.edges id with
  | .ok edges => edges.length
  | .error _ => 0

lemma expand_settled (hsound : req.SeenSound state) (hpres : req.Present id) : Settled
    (fun state' => Expanded req proof id state state' ∧ state.remaining ≤ state'.remaining + req.cost id)
    (state.remaining < req.cost id ∨ ¬ req.Sound id) (req.expand proof state id) := by
  by_cases hhalt : req.Halts proof id
  · rw [expand_stops hpres hhalt]
    exact ⟨⟨⟨[], .refl hsound, by simp⟩, .inl hhalt⟩, Nat.le_add_right _ _⟩
  rw [expand_follows hpres hhalt]
  have hgo : ¬ req.Stops id := fun hstop => hhalt (.inl hstop)
  cases hedg : req.edges id with
  | error err =>
    refine .inr fun hid => ?_
    obtain ⟨edges, hread, -⟩ := hid.resolve_left hgo
    rw [hedg] at hread
    cases hread
  | ok edges =>
    have hcost : req.cost id = edges.length := by
      rw [cost, hedg]
    refine (@checkEdges_settled req _ (req.noted state id) _ edges hsound).mono
      (Or.imp (hcost ▸ fun hlt => hlt) (mt fun hid => ?_)) ?_
    · obtain ⟨found, hread, hlea⟩ := hid.resolve_left hgo
      rw [hedg] at hread
      cases hread
      exact fun edge hedge => hlea edge (mem_followed.mp hedge).1 (mem_followed.mp hedge).2
    · rintro later ⟨⟨hlea, hgrown⟩, hrem⟩
      refine ⟨⟨⟨_, hgrown, fun target htarget hpres => ?_⟩,
        .inr ⟨edges, hedg, fun edge hedge hcut => ?_⟩⟩, hcost ▸ hrem⟩
      · obtain ⟨⟨target, expected⟩, hmem, rfl⟩ := mem_map.mp htarget
        obtain ⟨hedge, hcut⟩ := mem_followed.mp hmem
        exact ⟨hgo, edges, expected, hedg, hedge, hcut, hpres⟩
      · have hmem := mem_followed.mpr ⟨hedge, hcut⟩
        exact ⟨hlea edge hmem, hgrown.targets edge.1 (mem_map_of_mem hmem)⟩

lemma expand_eq_ok (hsound : req.SeenSound state) (hpres : req.Present id)
    (h : req.expand proof state id = .ok state') :
    Expanded req proof id state state' := ((expand_settled hsound hpres).of_ok h).1

end Expand

end Steps

section Run

variable {proof : Bool} {state : State} {id : ObjectId}

structure Done (req : Request) (proof : Bool) (state : State) (id : ObjectId) : Prop where
  known : req.received.contains id = false → id ∈ state.dependencies
  edges : req.Halts proof id ∨ Read req state.seen id

structure Invariant (req : Request) (proof : Bool) (state : State) : Prop where
  sound : req.SeenSound state
  wants : ∀ id ∈ req.wants, state.seen.contains id = true
  pending : ∀ id ∈ state.pending, state.seen.contains id = true
  followed : ∀ id, state.seen.contains id = true → id ∈ state.pending ∨ Done req proof state id

lemma Invariant.expand (h : Invariant req proof state) (hpen : state.pending = id :: pending)
    (hstep : Expanded req proof id { state with pending := pending } state') :
    Invariant req proof state' := by
  obtain ⟨targets, hgrown, -⟩ := hstep.grown
  obtain ⟨new, hnext, -, -, hseen⟩ := hgrown.fresh
  simp only [noted] at hnext hseen
  have hkeep : ∀ other, state.seen.contains other → state'.seen.contains other := fun other hoth =>
    (hseen other).mpr (.inl hoth)
  refine ⟨hgrown.sound, fun want hwant => hkeep want (h.wants want hwant), fun other hoth => ?_,
    fun other hoth => ?_⟩
  · rw [hnext] at hoth
    rcases mem_append.mp hoth with hoth | hoth
    · exact hkeep other (h.pending other (hpen ▸ mem_cons_of_mem _ hoth))
    · exact (hseen other).mpr (.inr hoth)
  rw [hnext, mem_append]
  rcases (hseen other).mp hoth with hold | hfresh
  · rcases h.followed other hold with hwait | hbefore
    · rw [hpen] at hwait
      rcases mem_cons.mp hwait with rfl | hwait
      · refine .inr ⟨fun hknown => ?_, hstep.edges⟩
        simp [hgrown.dependencies, noted, hknown]
      · exact .inl (.inl hwait)
    · refine .inr ⟨fun hknown => ?_, hbefore.edges.imp_right (·.mono hkeep)⟩
      rw [hgrown.dependencies]
      exact mem_append_left _ (hbefore.known hknown)
  · exact .inl (.inr hfresh)

lemma walkPending_nil (h : state.pending = []) : req.walkPending proof state = .ok state := by
  rw [walkPending]
  split
  · rfl
  · rename_i hoth
    rw [h] at hoth
    cases hoth

lemma walkPending_cons (h : state.pending = id :: pending) : req.walkPending proof state =
      req.expand proof { state with pending := pending } id >>= req.walkPending proof := by
  rw [walkPending]
  split
  · rename_i hoth
    rw [h] at hoth
    cases hoth
  rename_i other rest hoth
  rw [h] at hoth
  cases hoth
  split
  · rename_i err hexp
    rw [hexp]
    rfl
  · rename_i state' hexp
    rw [hexp]
    rfl

lemma walkPending_induct {P : State → Prop} (step : ∀ state id pending state', P state → state.pending = id :: pending →
      req.expand proof { state with pending := pending } id = .ok state' → P state')
    (hsta : P state) (h : req.walkPending proof state = .ok final) : P final ∧ final.pending = [] := by
  induction state using walkPending.induct req proof with
  | case1 state hpen =>
    rw [walkPending_nil hpen] at h
    cases h
    exact ⟨hsta, hpen⟩
  | case2 state id pending hpen err hexp =>
    rw [walkPending_cons hpen, hexp] at h
    cases h
  | case3 state id pending hpen state' hexp ih =>
    rw [walkPending_cons hpen, hexp] at h
    exact ih (step state id pending state' hsta hpen hexp) h

end Run

section Start

variable {state state' : State}
variable {id : ObjectId}

lemma addWant_settled (hsound : req.SeenSound state) (id : ObjectId) :
    Settled (fun state' => req.Present id ∧ state' = req.enter (fun _ => false) state id) (¬ req.Present id)
      (req.addWant state id) := by
  rw [addWant, enter, Present]
  cases hget : state.seen.get id with
  | some actual => simp [Settled, OrdMap.contains, hget, hsound _ _ hget]
  | none =>
    rcases hkind : req.kind id with error | (- | kind) <;>
      simp [Settled, OrdMap.contains, hget, bind, Except.bind, pure, Except.pure]

lemma addWants_settled {wants : List ObjectId} (hsound : req.SeenSound state) : Settled
    (fun state' => Grown req (fun _ => false) wants state state' ∧ (∀ id ∈ wants, req.Present id) ∧
      state'.remaining = state.remaining)
    (¬ ∀ id ∈ wants, req.Present id) (wants.foldlM req.addWant state) := by
  induction wants generalizing state with
  | nil => exact ⟨.refl hsound, by simp, rfl⟩
  | cons id wants ih =>
    rw [foldlM_cons]
    simp only [forall_mem_cons]
    refine (addWant_settled hsound id).bind (mt And.left) ?_
    rintro _ ⟨hpres, rfl⟩
    have hgrown := @grown_enter req state (fun _ => false) hsound id
    refine (ih hgrown.sound).mono (mt And.right) ?_
    rintro later ⟨hgrown', hall, hrem⟩
    exact ⟨hgrown.trans hgrown', ⟨hpres, hall⟩, hrem.trans (enter_remaining state id)⟩

/-- A target of the received trees that was received itself is seen without being pending. -/
lemma addTarget_eq_ok {target : ObjectId × ObjectKind} (hsound : req.SeenSound state)
    (h : req.addTarget state target = .ok state') :
    LeadsFrom req false target ∧ state' = req.enter req.received.contains state target.1 := by
  obtain ⟨kind, hkind, h⟩ := bind_ok.mp h
  rw [LeadsFrom, enter, hkind]
  cases kind with
  | none =>
    simp only at h
    split_ifs at h with hpro
    cases h
    exact ⟨.inr ⟨rfl, hpro⟩, by split <;> simp_all⟩
  | some actual =>
    obtain ⟨hsame, hlast⟩ := reject_bind.mp h
    cases hlast
    refine ⟨.inl (by rw [not_not.mp hsame]), ?_⟩
    cases hget : state.seen.get target.1 with
    | none => cases hrec : req.received.contains target.1 <;> simp [OrdMap.contains, hget]
    | some seen =>
      have hseen := hsound _ _ hget
      rw [hkind] at hseen
      cases hseen
      simp [OrdMap.contains, hget, OrdMap.insert_of_get hget]

lemma addTargets_eq_ok {targets : List (ObjectId × ObjectKind)}
    (h : targets.foldlM req.addTarget state = .ok state') (hsound : req.SeenSound state) :
    (∀ target ∈ targets, LeadsFrom req false target) ∧
      Grown req req.received.contains (targets.map Prod.fst) state state' := by
  induction targets generalizing state with
  | nil =>
    cases h
    exact ⟨by simp, .refl hsound⟩
  | cons target targets ih =>
    obtain ⟨middle, hfirst, hrest⟩ := bind_ok.mp h
    obtain ⟨hlea, rfl⟩ := addTarget_eq_ok hsound hfirst
    have hgrown := @grown_enter req state req.received.contains hsound target.1
    obtain ⟨hall, hgrown'⟩ := ih hrest hgrown.sound
    exact ⟨forall_mem_cons.mpr ⟨hlea, hall⟩, hgrown.trans hgrown'⟩

/-- What a proof adds to the walk: every received tree is read. -/
def ProofHolds (req : Request) (seen : OrdMap ObjectId ObjectKind) : Prop :=
  ∀ id, req.received.provenTree id = true → Read req seen id

/-- An imported object was received, or it is a base and known to the destination. -/
lemma imported_cases (h : req.received.imported id = some object) :
    req.received.get id = some object ∨
      req.received.get id = none ∧ req.known.tryGet id = .ok (some object) ∧
      req.known.tryKnownKind id = .ok (some object.kind) := by
  unfold ReceivedObjects.get
  split_ifs with happ
  · exact .inr ⟨rfl, req.bases _ (imported_eq_some.mp h) happ⟩
  · exact .inl h

lemma imported_of_get (h : req.received.get id = some object) :
    req.received.imported id = some object := by
  unfold ReceivedObjects.get at h
  split_ifs at h
  exact h

lemma imported_kind (h : req.received.imported id = some object) :
    req.kind id = .ok (some object.kind) := by
  rcases imported_cases h with hget | ⟨hget, -, hkind⟩ <;> simp [kind, ReceivedObjects.kind, *]

/-- The edges of an imported object, whether import kept them or the object is read again. -/
lemma imported_edges (h : req.received.imported id = some object) :
    req.edges id = objectEdges id object := by
  simp only [edges, ReceivedObjects.edges, verified_get, h, Option.map_some, structureOf]
  rcases imported_cases h with hget | ⟨hget, hknown, -⟩
  all_goals
    cases hread : objectEdges id object with
    | error error => simp [lookup, bind, Except.bind, Except.map, *]
    | ok edges => by_cases hkind : object.kind = .tree <;> simp [lookup, bind, Except.bind, pure, Except.pure, Except.map, *]

lemma walk_start (h : req.walk lim proof = .ok final) : ∃ wanted start,
      (∀ id ∈ req.shallow, ∃ object, req.lookup id = .ok (some object) ∧ object.kind = .commit) ∧
      req.wants.foldlM req.addWant (.start lim) = .ok wanted ∧
      req.startProof proof wanted = .ok start ∧ req.walkPending proof.isSome start = .ok final := by
  obtain ⟨⟨⟩, hsha, h⟩ := bind_ok.mp h
  obtain ⟨wanted, hwan, h⟩ := bind_ok.mp h
  obtain ⟨start, hst, h⟩ := bind_ok.mp h
  refine ⟨wanted, start, fun id hid => ?_, hwan, hst, h⟩
  have htest := forM_eq_ok.mp hsha id hid
  obtain ⟨fnd, hgot, htest⟩ := bind_ok.mp htest
  split at htest
  · cases htest
  · rename_i object
    rw [reject_ok, not_not] at htest
    exact ⟨object, hgot, htest⟩

lemma empty_sound (lim : FetchLimits) : req.SeenSound (.start lim) := by
  intro id kind hget
  cases hget

/-- The walk begins with the wanted objects pending, and with the targets of received trees entered. -/
lemma start_invariant {wanted start : State}
    (hpro : ∀ targets, proof = some targets → req.received.treeProof = some targets)
    (hwish : req.wants.foldlM req.addWant (.start lim) = .ok wanted)
    (hst : req.startProof proof wanted = .ok start) :
    Invariant req proof.isSome start ∧ (proof.isSome → ProofHolds req start.seen) := by
  obtain ⟨hgrown, hall, -⟩ := (addWants_settled (empty_sound lim)).of_ok hwish
  obtain ⟨new, hpen, -, -, hseen⟩ := hgrown.fresh
  have hwant : ∀ id ∈ req.wants, wanted.seen.contains id :=
    fun id hid => hgrown.targets id hid (hall id hid)
  have hwait : ∀ id, wanted.seen.contains id ↔ id ∈ wanted.pending := by
    intro id
    rw [hseen, hpen]
    simp [State.start, OrdMap.contains, OrdMap.get_empty]
  cases proof with
  | none =>
    cases hst
    exact ⟨⟨hgrown.sound, hwant, fun id => (hwait id).mpr, fun id hid => .inl ((hwait id).mp hid)⟩,
      fun hsome => by cases hsome⟩
  | some targets =>
    obtain ⟨htre, hkin⟩ := treeProof_eq_some (hpro targets rfl)
    obtain ⟨⟨⟩, -, hst⟩ := bind_ok.mp hst
    obtain ⟨hlea, hentered⟩ := addTargets_eq_ok hst hgrown.sound
    obtain ⟨new, hpen, -, -, hseen⟩ := hentered.new
    refine ⟨⟨hentered.sound, fun id hid => (hseen id).mpr (.inl (hwant id hid)), fun id hid => ?_,
      fun id hid => ?_⟩,
      fun _ id hprev => ?_⟩
    · rw [hpen] at hid
      exact (hseen id).mpr ((mem_append.mp hid).imp (hwait id).mpr .inl)
    · rw [hpen, mem_append]
      rcases (hseen id).mp hid with hold | hnew | ⟨hrec, hmem, hpres⟩
      · exact .inl (.inl ((hwait id).mp hold))
      · exact .inl (.inr hnew)
      -- a received target is a blob, or a tree that the proof covers
      · refine .inr ⟨fun hknown => absurd (hrec.symm.trans hknown) (by decide), .inl ?_⟩
        obtain ⟨⟨id, expected⟩, hin, rfl⟩ := mem_map.mp hmem
        have hkind := (hlea _ hin).resolve_right fun hnone => not_present_of_none hnone.1 hpres
        obtain ⟨object, hget⟩ := Option.isSome_iff_exists.mp hrec
        have hobj := imported_of_get hget
        have hsame : object.kind = expected := by
          simpa using (imported_kind hobj).symm.trans hkind
        rcases hkin id expected (OrdMap.mem_entries.mp hin) with rfl | rfl
        · exact .inl (.inr hkind)
        · obtain ⟨edges, hedg, -⟩ := htre id object hobj hsame
          exact .inr ⟨rfl, provenTree_iff.mpr ⟨object, edges, hobj, hsame, hedg⟩⟩
    · obtain ⟨object, -, hobj, hkind, -⟩ := provenTree_iff.mp hprev
      obtain ⟨edges, hedg, hcov⟩ := htre id object hobj hkind
      refine ⟨edges, (imported_edges hobj).trans hedg, fun edge hedge _ => ?_⟩
      have hcommit : req.isCommit id = false := by
        simp [isCommit, imported_kind hobj, hkind]
      have hmem := OrdMap.mem_entries.mpr (hcov edge hedge)
      rw [Leads, hcommit]
      exact ⟨hlea edge hmem, hentered.targets edge.1 (mem_map_of_mem hmem)⟩

end Start

section Soundness

variable {final : State}

/-- A finished walk has seen and followed everything that is reached. -/
structure Finished (req : Request) (final : State) : Prop where
  shallow : ∀ id ∈ req.shallow, ∃ object, req.lookup id = .ok (some object) ∧ object.kind = .commit
  seenSound : req.SeenSound final
  wants : ∀ id ∈ req.wants, final.seen.contains id = true
  sound : ∀ id, final.seen.contains id = true → req.Sound id
  edge : ∀ id target, final.seen.contains id = true → req.Edge id target → final.seen.contains target = true
  dependencies : ∀ id, final.seen.contains id = true → req.received.contains id = false → id ∈ final.dependencies

lemma walk_finished (hpro : ∀ targets, proof = some targets → req.received.treeProof = some targets)
    (h : req.walk lim proof = .ok final) : Finished req final := by
  obtain ⟨wanted, start, hsha, hwan, hst, hwalk⟩ := walk_start h
  obtain ⟨hinv, hprev⟩ := start_invariant hpro hwan hst
  have hrun : (Invariant req proof.isSome final ∧ (proof.isSome → ProofHolds req final.seen)) ∧
      final.pending = [] := by
    refine walkPending_induct (P := fun state => Invariant req proof.isSome state ∧
      (proof.isSome → ProofHolds req state.seen)) ?_ ⟨hinv, hprev⟩ hwalk
    rintro state id pending state' ⟨hbf, hhol⟩ hpen hexp
    have hstep : Expanded req proof.isSome id { state with pending := pending } state' :=
      expand_eq_ok hbf.sound (hbf.sound.present (hbf.pending id (hpen ▸ mem_cons_self))) hexp
    obtain ⟨targets, hgrown, -⟩ := hstep.grown
    obtain ⟨new, -, -, -, hseen⟩ := hgrown.fresh
    exact ⟨hbf.expand hpen hstep, fun hsome id hprev => (hhol hsome id hprev).mono fun other hoth =>
      (hseen other).mpr (.inl hoth)⟩
  obtain ⟨⟨hend, hhol⟩, hnone⟩ := hrun
  -- whatever was followed, its edges that are not cut lead somewhere and their targets are seen
  have hdone : ∀ id, final.seen.contains id → Done req proof.isSome final id := by
    intro id hseen
    rcases hend.followed id hseen with hpen | hdone
    · rw [hnone] at hpen
      cases hpen
    · exact hdone
  have hedg : ∀ id, final.seen.contains id → req.Stops id ∨ Read req final.seen id := by
    intro id hseen
    rcases (hdone id hseen).edges with (hstop | ⟨hsome, hprev⟩) | hread
    · exact .inl hstop
    · exact .inr (hhol hsome id hprev)
    · exact .inr hread
  refine ⟨hsha, hend.sound, hend.wants, fun id hseen => ?_, fun id tgt hseen hedge => ?_,
    fun id hseen hkn => (hdone id hseen).known hkn⟩
  · exact (hedg id hseen).imp_right fun ⟨edges, hread, hlea⟩ =>
      ⟨edges, hread, fun edge hedge hcut => (hlea edge hedge hcut).1⟩
  obtain ⟨hmove, edges, exp, hread, hmem, hcut, hpres⟩ := hedge
  rcases hedg id hseen with hstop | ⟨fnd, hgot, hlea⟩
  · exact absurd hstop hmove
  · rw [hread] at hgot
    cases hgot
    exact (hlea (tgt, exp) hmem hcut).2 hpres

lemma Finished.seen_of_reached (h : Finished req final) {id : ObjectId}
    (hrea : req.Reached id) : final.seen.contains id :=
  Closed.reach (s := {id | final.seen.contains id})
    (fun _ hid _ hedge => h.edge _ _ hid hedge) h.wants hrea

lemma Finished.connected (h : Finished req final) : req.Connected := by
  refine ⟨h.shallow, fun id hid => ?_, fun id hrea => h.sound id (h.seen_of_reached hrea)⟩
  exact h.seenSound.present (h.wants id hid)

lemma validate_finished {dependencies : List ObjectId} (h : req.validate lim = .ok dependencies) :
    ∃ final, Finished req final ∧ final.dependencies = dependencies := by
  have hex : (req.walk lim none).map State.dependencies = .ok dependencies →
      ∃ final, Finished req final ∧ final.dependencies = dependencies := by
    intro hmap
    obtain ⟨final, hwalk, hdep⟩ := map_ok.mp hmap
    exact ⟨final, walk_finished (fun _ hnone => by cases hnone) hwalk, hdep⟩
  unfold validate at h
  split at h
  · exact hex h
  rename_i proof hpro
  split at h
  · rename_i final hwalk
    refine ⟨final, walk_finished (fun targets hsome => ?_) hwalk, Except.ok.inj h⟩
    cases hsome
    exact hpro
  · exact hex h

end Soundness

section Exact

/-- The exact walk sees only what is reached, each object once, and depends on what it saw. -/
structure Exact (req : Request) (state : State) : Prop where
  sound : req.SeenSound state
  reached : ∀ id, state.seen.contains id = true → req.Reached id
  pending : ∀ id ∈ state.pending, state.seen.contains id = true
  nodup : state.pending.Nodup
  dependencies : ∀ id ∈ state.dependencies, req.Reached id ∧ req.received.contains id = false

lemma Expanded.new {id : ObjectId} (h : Expanded req false id state state') :
    ∃ new, state'.pending = state.pending ++ new ∧ new.Nodup ∧
      (∀ other ∈ new, state.seen.contains other = false ∧ req.Edge id other) ∧
      ∀ other, state'.seen.contains other ↔ state.seen.contains other ∨ other ∈ new := by
  obtain ⟨targets, hgrown, hedge⟩ := h.grown
  obtain ⟨new, hpen, hnd, hnew, hseen⟩ := hgrown.fresh
  refine ⟨new, hpen, hnd, fun other hoth => ?_, hseen⟩
  obtain ⟨hfresh, htarget, hpres⟩ := hnew other hoth
  exact ⟨hfresh, hedge other htarget hpres⟩

lemma Exact.expand {id : ObjectId} (h : Exact req state) (hpen : state.pending = id :: pending)
    (hstep : Expanded req false id { state with pending := pending } state') :
    Exact req state' := by
  obtain ⟨targets, hgrown, -⟩ := hstep.grown
  obtain ⟨new, hnwP, hnd, hnew, hseen⟩ := hstep.new
  have hid : req.Reached id := h.reached id (h.pending id (hpen ▸ mem_cons_self))
  have hrest : ∀ other ∈ pending, state.seen.contains other := fun other hoth =>
    h.pending other (hpen ▸ mem_cons_of_mem _ hoth)
  have hbf : pending.Nodup := by
    have := h.nodup
    rw [hpen] at this
    exact this.of_cons
  refine ⟨hgrown.sound, fun other hoth => ?_, fun other hoth => ?_, ?_, fun other hoth => ?_⟩
  · rcases (hseen other).mp hoth with hold | hfr
    · exact h.reached other hold
    · exact hid.step (hnew other hfr).2
  · rw [hnwP] at hoth
    exact (hseen other).mpr ((mem_append.mp hoth).imp_left (hrest other))
  · rw [hnwP]
    refine hbf.append hnd fun other hold hfr => ?_
    have huns := (hnew other hfr).1
    rw [hrest other hold] at huns
    cases huns
  · rw [hgrown.dependencies] at hoth
    rcases mem_append.mp hoth with hold | hlast
    · exact h.dependencies other hold
    split_ifs at hlast with hrec
    · cases hlast
    · rw [mem_singleton.mp hlast]
      exact ⟨hid, Bool.not_eq_true _ ▸ hrec⟩

lemma exact_start {wanted : State} (hwan : req.wants.foldlM req.addWant (.start lim) = .ok wanted) :
    Exact req wanted := by
  obtain ⟨hgrown, -, -⟩ := (addWants_settled (empty_sound lim)).of_ok hwan
  obtain ⟨new, hpen, hnd, hnew, hseen⟩ := hgrown.fresh
  have hmem : ∀ id, wanted.seen.contains id ↔ id ∈ new := by
    intro id
    rw [hseen]
    simp [State.start, OrdMap.contains, OrdMap.get_empty]
  refine ⟨hgrown.sound, fun id hid => .root (hnew id ((hmem id).mp hid)).2.1, fun id hid => ?_, ?_,
    fun id hid => ?_⟩
  · rw [hpen] at hid
    exact (hmem id).mpr hid
  · rw [hpen]
    exact hnd
  · rw [hgrown.dependencies] at hid
    cases hid

lemma exact_walk (h : req.walk lim none = .ok final) : Exact req final := by
  obtain ⟨wanted, start, -, hwan, hst, hwalk⟩ := walk_start h
  cases hst
  refine (walkPending_induct (P := Exact req) ?_ (exact_start hwan) hwalk).1
  intro state id pending state' hex hpen hexp
  exact hex.expand hpen (expand_eq_ok hex.sound (hex.sound.present (hex.pending id (hpen ▸ mem_cons_self))) hexp)

end Exact

section Budget

variable {state : State}

instance : Finite ObjectId := by
  have hbytes : Finite UInt8 := Finite.of_injective UInt8.toFin fun _ _ h => UInt8.toFin_inj.mp h
  have hdigests : Finite {bytes : Bytes // bytes.length ≤ 32} := (List.finite_length_le UInt8 32).to_subtype
  have hformats : Finite ObjectFormat :=
    Finite.of_injective (fun format => decide (format = .sha1)) fun a b h => by cases a <;> cases b <;> simp_all
  have hwidth : ∀ id : ObjectId, id.bytes.length ≤ 32 := by
    intro id
    rw [id.width]
    cases id.format <;> decide
  refine Finite.of_injective (β := ObjectFormat × {bytes : Bytes // bytes.length ≤ 32})
    (fun id => (id.format, ⟨id.bytes, hwidth id⟩)) fun a b h => ?_
  simp only [Prod.mk.injEq, Subtype.mk.injEq] at h
  exact ObjectId.ext h.1 h.2

noncomputable instance : Fintype ObjectId := Fintype.ofFinite ObjectId

/-- The edges that remain suffice for every object that was not followed yet. -/
def Affordable (req : Request) (state : State) : Prop :=
  ∃ done : Finset ObjectId, (∀ id ∈ done, state.seen.contains id = true ∧ id ∉ state.pending) ∧
    ∑ id ∈ doneᶜ, req.cost id ≤ state.remaining

lemma Affordable.expand {id : ObjectId} (hex : Exact req state)
    (hpen : state.pending = id :: pending)
    (hstep : Expanded req false id { state with pending := pending } state')
    {done : Finset ObjectId} (hdone : ∀ id ∈ done, state.seen.contains id ∧ id ∉ state.pending)
    (hleft : ∑ other ∈ (insert id done)ᶜ, req.cost other ≤ state'.remaining) :
    Affordable req state' := by
  obtain ⟨new, hnwP, -, hnew, hseen⟩ := hstep.new
  have hid : state.seen.contains id := hex.pending id (hpen ▸ mem_cons_self)
  have hdis : id ∉ pending := by
    have := hex.nodup
    rw [hpen] at this
    exact (nodup_cons.mp this).1
  refine ⟨insert id done, fun other hoth => ?_, hleft⟩
  have hold : state.seen.contains other ∧ other ∉ pending := by
    rcases Finset.mem_insert.mp hoth with rfl | hoth
    · exact ⟨hid, hdis⟩
    · obtain ⟨hseen, hwait⟩ := hdone other hoth
      rw [hpen] at hwait
      exact ⟨hseen, fun hmem => hwait (.tail _ hmem)⟩
  refine ⟨(hseen other).mpr (.inl hold.1), fun hwait => ?_⟩
  rw [hnwP] at hwait
  rcases mem_append.mp hwait with hwait | hwait
  · exact hold.2 hwait
  · have hfr := (hnew other hwait).1
    rw [hold.1] at hfr
    cases hfr

lemma expand_of_connected (hcon : req.Connected) (hex : Exact req state)
    (haff : Affordable req state) {id : ObjectId} (hpen : state.pending = id :: pending) :
    ∃ state', Exact req state' ∧ Affordable req state' ∧
      req.expand false { state with pending := pending } id = .ok state' := by
  have hid : state.seen.contains id := hex.pending id (hpen ▸ mem_cons_self)
  obtain ⟨done, hdone, hsum⟩ := haff
  have hfr : id ∉ done := fun hmem => (hdone id hmem).2 (hpen ▸ mem_cons_self)
  have hcut : req.cost id + ∑ other ∈ (insert id done)ᶜ, req.cost other =
      ∑ other ∈ doneᶜ, req.cost other := by
    rw [Finset.compl_insert]
    exact Finset.add_sum_erase _ _ (Finset.mem_compl.mpr hfr)
  have hpres := hex.sound.present hid
  obtain ⟨state', hexp, hexpa, hleft⟩ := (@expand_settled req { state with pending := pending }
    false id hex.sound hpres).total
    (not_or.mpr ⟨by simp only; omega, not_not.mpr (hcon.sound id (hex.reached id hid))⟩)
  simp only at hleft
  exact ⟨state', hex.expand hpen hexpa, .expand hex hpen hexpa hdone (by omega), hexp⟩

lemma walkPending_of_connected (hcon : req.Connected) (hex : Exact req state)
    (haff : Affordable req state) : ∃ final, req.walkPending false state = .ok final := by
  induction state using walkPending.induct req false with
  | case1 state hpen => exact ⟨state, walkPending_nil hpen⟩
  | case2 state id pending hpen err hexp =>
    obtain ⟨state', -, -, hok⟩ := expand_of_connected hcon hex haff hpen
    rw [hexp] at hok
    cases hok
  | case3 state id pending hpen state' hexp ih =>
    obtain ⟨fnd, hgot, hfou, hok⟩ := expand_of_connected hcon hex haff hpen
    rw [hexp] at hok
    cases hok
    rw [walkPending_cons hpen, hexp]
    exact ih hgot hfou

lemma walk_of_connected (hcon : req.Connected)
    (hlim : ∑ id, req.cost id ≤ lim.maxConnectivityEdges) :
    ∃ final, req.walk lim none = .ok final := by
  have hsha : req.shallow.forM req.checkShallow = .ok () := by
    refine forM_eq_ok.mpr fun id hid => ?_
    obtain ⟨object, hobj, hkind⟩ := hcon.shallow id hid
    exact bind_ok.mpr ⟨_, hobj, reject_ok.mpr (not_not.mpr hkind)⟩
  obtain ⟨wanted, hwan, -, -, hrem⟩ := (addWants_settled (empty_sound lim)).total (not_not.mpr hcon.wants)
  have haff : Affordable req wanted := by
    refine ⟨∅, by simp, ?_⟩
    rw [Finset.compl_empty, hrem]
    exact hlim
  obtain ⟨final, hfin⟩ := walkPending_of_connected hcon (exact_start hwan) haff
  exact ⟨final, bind_ok.mpr ⟨(), hsha, bind_ok.mpr ⟨wanted, hwan, bind_ok.mpr ⟨wanted, rfl, hfin⟩⟩⟩⟩

end Budget

section Verdict

lemma validate_of_walk (h : req.walk lim none = .ok final) :
    ∃ dependencies, req.validate lim = .ok dependencies ∧
      ∀ id ∈ final.dependencies, id ∈ dependencies := by
  obtain ⟨dependencies, hval⟩ : ∃ dependencies, req.validate lim = .ok dependencies := by
    unfold validate
    rw [h]
    split
    · exact ⟨_, rfl⟩
    · split
      · exact ⟨_, rfl⟩
      · exact ⟨_, rfl⟩
  obtain ⟨finished, hfin, rfl⟩ := validate_finished hval
  refine ⟨_, hval, fun id hid => ?_⟩
  obtain ⟨hrea, hkn⟩ := (exact_walk h).dependencies id hid
  exact hfin.dependencies id (hfin.seen_of_reached hrea) hkn

/-- Whatever is accepted is connected, and its dependencies name every known object that is reached;
what the exact walk accepts is accepted within the same limits, with at least the same dependencies;
and with enough edges both accept exactly what is connected. -/
theorem validate_connected (request : Request) :
    (∀ limits dependencies, request.validate limits = .ok dependencies → request.Connected ∧
      ∀ id, request.Reached id → request.received.contains id = false → id ∈ dependencies) ∧
    (∀ limits final, request.walk limits none = .ok final →
      ∃ dependencies, request.validate limits = .ok dependencies ∧ ∀ id ∈ final.dependencies, id ∈ dependencies) ∧
    ∃ bound, ∀ limits : FetchLimits, bound ≤ limits.maxConnectivityEdges →
      ((∃ dependencies, request.validate limits = .ok dependencies) ↔ request.Connected) ∧
      ((∃ final, request.walk limits none = .ok final) ↔ request.Connected) := by
  have hsound : ∀ limits dependencies, request.validate limits = .ok dependencies → request.Connected ∧
      ∀ id, request.Reached id → request.received.contains id = false → id ∈ dependencies := by
    intro limits dependencies hval
    obtain ⟨final, hfin, rfl⟩ := validate_finished hval
    exact ⟨hfin.connected, fun id hrea => hfin.dependencies id (hfin.seen_of_reached hrea)⟩
  refine ⟨hsound, fun limits final hwalk => validate_of_walk hwalk, ∑ id, request.cost id,
    fun limits hlim => ?_⟩
  refine ⟨⟨fun ⟨dependencies, hval⟩ => (hsound limits dependencies hval).1, fun hcon => ?_⟩,
    ⟨fun ⟨final, hwalk⟩ => ?_, fun hcon => walk_of_connected hcon hlim⟩⟩
  · obtain ⟨final, hwalk⟩ := walk_of_connected hcon hlim
    obtain ⟨dependencies, hval, -⟩ := validate_of_walk hwalk
    exact ⟨dependencies, hval⟩
  · obtain ⟨dependencies, hval, -⟩ := validate_of_walk hwalk
    exact (hsound limits dependencies hval).1

end Verdict

end Request

end Girt.Fetch
