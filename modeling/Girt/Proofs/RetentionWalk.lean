import Girt.Lib.Graph
import Girt.Retention.Walk

/-!
# What the walk finds

A walk that ends has found exactly what its roots reach.
-/

namespace Girt

open ByteLib GraphLib List

variable {object : Object}

section Store

variable {objs : Objects} {cont : ObjectId → Option Object} {id : ObjectId}

lemma readPacks_identified {packs : List FilePack} {damage after : Option ObjectReadError}
    (hpac : ∀ pack ∈ packs, ∀ copy, pack.find id = some copy → ∀ object, copy.body = .ok object →
      cont id = some object)
    (h : Objects.readPacks id damage packs = .ok (some object, after)) : cont id = some object := by
  induction packs generalizing damage with
  | nil => cases h
  | cons pack packs ih =>
    have hrest := fun damage => @ih damage fun other hoth => hpac other (.tail _ hoth)
    rw [Objects.readPacks] at h
    split at h
    · exact hrest _ h
    rename_i copy hcopy
    split at h
    · rename_i fnd hbody
      cases h
      exact hpac pack (.head _) copy hcopy _ hbody
    · exact hrest _ h
    · cases h

lemma Objects.Identified.read (h : objs.Identified cont)
    (hread : objs.read id = .ok (some object)) : cont id = some object := by
  have hstrong : ∀ (stores : List Store) (damage : Option ObjectReadError), (∀ store ∈ stores, store ∈ objs.stores) →
      objs.readStores id damage stores = .ok (some object) → cont id = some object := by
    intro stores
    induction stores with
    | nil =>
      intro damage _ hread
      cases damage with
      | some err => cases hread
      | none =>
        rw [Objects.readStores] at hread
        split_ifs at hread with hemp
        · cases hread
          rw [hemp]
          exact h.emptyTree
        · cases hread
    | cons store stores ih =>
      intro damage hmem hread
      have hsto := hmem store (.head _)
      have hrest := fun damage => ih damage fun other hoth => hmem other (.tail _ hoth)
      obtain ⟨⟨packed, after⟩, hpac, hread⟩ := bind_ok.mp hread
      cases packed with
      | some fnd =>
        cases hread
        exact readPacks_identified (fun pack hpack copy hcopy =>
          (h.packed store hsto pack hpack id copy hcopy).1) hpac
      | none =>
        simp only at hread
        split at hread
        · exact hrest _ hread
        rename_i copy hcopy
        split at hread
        · rename_i fnd hbody
          cases hread
          exact (h.loose store hsto id copy hcopy).1 _ hbody
        · split_ifs at hread
          exact hrest _ hread
        · cases hread
  exact hstrong objs.stores none (fun _ hsto => hsto) hread

lemma Objects.Identified.locate (h : objs.Identified cont) {kind : ObjectKind} {size : Nat}
    (hloc : objs.locate id = .ok (some (kind, size))) :
    ∃ object, cont id = some object ∧ object.kind = kind := by
  have hhd : ∀ {copy : Copy}, copy.header.map some = .ok (some (kind, size)) →
      copy.header = .ok (kind, size) := by
    intro copy hmap
    obtain ⟨_, hhd, ⟨⟩⟩ := map_ok.mp hmap
    exact hhd
  have hstrong : ∀ stores : List Store, (∀ store ∈ stores, store ∈ objs.stores) →
      objs.locateStores id stores = .ok (some (kind, size)) → ∃ object, cont id = some object ∧
      object.kind = kind := by
    intro stores
    induction stores with
    | nil =>
      intro _ hloc
      rw [Objects.locateStores] at hloc
      split_ifs at hloc with hemp
      · cases hloc
        exact ⟨_, hemp ▸ h.emptyTree, rfl⟩
      · cases hloc
    | cons store stores ih =>
      intro hmem hloc
      have hsto := hmem store (.head _)
      rw [Objects.locateStores] at hloc
      split at hloc
      · rename_i copy hcopy
        obtain ⟨pack, hpack, hfind⟩ := exists_of_findSome?_eq_some hcopy
        exact (h.packed store hsto pack hpack id copy hfind).2 kind size (hhd hloc)
      split at hloc
      · rename_i copy hcopy
        exact (h.loose store hsto id copy hcopy).2 kind size (hhd hloc)
      · exact ih (fun other hoth => hmem other (.tail _ hoth)) hloc
  obtain ⟨⟨⟩, -, hloc⟩ := bind_ok.mp hloc
  exact hstrong objs.stores (fun _ hsto => hsto) hloc

end Store

namespace Retention

variable {repo : Repository} {pol : RetentionPolicy} {roots : IdSet} {cont : ObjectId → Option Object}

def Edge (repo : Repository) (cont : ObjectId → Option Object) (id target : ObjectId) : Prop :=
  ∃ object, cont id = some object ∧
    ∃ kind, (target, kind) ∈ object.edges repo.objects.format (decide (id ∈ repo.shallowRoots))

section Visit

variable {edge : ObjectId × ObjectKind}

lemma collectEdges_eq (maxEdges : Nat) (error : Option TreeError)
    (edges : List (ObjectId × ObjectKind)) (entries : List RawEntry)
    (h : (collectEdges maxEdges error edges entries).1.length ≤ maxEdges) :
    (collectEdges maxEdges error edges entries).1 = edges ++ entries.filterMap RawEntry.edge := by
  induction entries generalizing edges with
  | nil => simp [collectEdges]
  | cons entry entries ih =>
    rw [collectEdges] at h ⊢
    split_ifs at h ⊢ with hlen
    · rw [ih _ h]
      cases hedge : entry.edge <;> simp [hedge]
    · exact absurd h hlen

/-- All edges of an object are visited, if they are few. -/
lemma visitEdges_eq (id : ObjectId) (hsize : object.data.length ≤ pol.maxBytes)
    (hlen : (visitEdges repo pol id object).1.length ≤ pol.maxEdges) :
    (visitEdges repo pol id object).1 =
      object.edges repo.objects.format (decide (id ∈ repo.shallowRoots)) := by
  unfold visitEdges at hlen ⊢
  unfold Object.edges
  have hsmall : ¬ (object.kind ≠ .blob ∧ pol.maxBytes < object.data.length) :=
    fun hlarge => not_lt.mpr hsize hlarge.2
  rw [if_neg hsmall] at hlen ⊢
  cases hkind : object.kind with
  | blob => rfl
  | commit =>
    rw [hkind, Commit.parse] at hlen
    rw [Commit.parse]
    cases hparse : parseGraph repo.objects.format object.data with
    | error error => rfl
    | ok graph =>
      simp only [hparse, Except.map, Commit.ofGraph, length_cons, decide_eq_true_eq, cons.injEq,
        true_and] at hlen ⊢
      split_ifs at hlen ⊢ with hcut
      · rfl
      · rw [length_take] at hlen
        exact take_of_length_le (by omega)
  | tree =>
    rw [hkind] at hlen
    exact collectEdges_eq _ _ _ _ hlen
  | tag => cases Tag.parseTarget repo.objects.format object.data <;> rfl

end Visit

section Steps

variable {id : ObjectId} {walk walk' : Walk} {queue : List (ObjectId × Bool)}

def InfoSound (cont : ObjectId → Option Object) (objectInfo : OrdMap ObjectId ObjectInfo) : Prop :=
  ∀ id info, objectInfo.get id = some info → ∃ object, cont id = some object ∧ object.kind = info.kind

lemma InfoSound.insert {objectInfo : OrdMap ObjectId ObjectInfo} (h : InfoSound cont objectInfo) {id : ObjectId}
    {object : Object} (hobj : cont id = some object) (size : Nat) :
    InfoSound cont (objectInfo.insert id ⟨object.kind, size⟩) := OrdMap.forall_insert h ⟨object, hobj, rfl⟩

structure Invariant (repo : Repository) (cont : ObjectId → Option Object) (roots : IdSet) (walk : Walk) : Prop where
  enabled : walk.boundaries.enabled = false
  missing : ∀ id, walk.missing.contains id = false
  starts : ∀ id, roots.contains id = true → walk.nodes.contains id = true
  queued : ∀ id ∈ walk.queue.map Prod.fst, walk.nodes.contains id = true
  found : ∀ id, walk.nodes.contains id = true → Reach (Edge repo cont) {id | roots.contains id = true} id
  followed : Followed (Edge repo cont) {id | walk.nodes.contains id = true}
    {id | id ∈ walk.queue.map Prod.fst ∨ id ∈ walk.blobs}
  info : InfoSound cont walk.objectInfo

/-- Edges add their targets to what was seen, and to the queue those that are new. -/
structure Added (targets : List ObjectId) (walk walk' : Walk) : Prop where
  nodes : ∀ id, walk'.nodes.contains id = true ↔ id ∈ targets ∨ walk.nodes.contains id = true
  queue : ∀ id, id ∈ walk.queue.map Prod.fst → id ∈ walk'.queue.map Prod.fst
  queued : ∀ id, id ∈ walk'.queue.map Prod.fst → id ∈ walk.queue.map Prod.fst ∨ id ∈ targets
  fresh : ∀ id ∈ targets, walk.nodes.contains id = true ∨ id ∈ walk'.queue.map Prod.fst
  rest : walk'.boundaries = walk.boundaries ∧ walk'.missing = walk.missing ∧ walk'.blobs = walk.blobs ∧
    walk'.objectInfo = walk.objectInfo

lemma addEdge_eq_ok {edge : ObjectId × ObjectKind}
    (h : addEdge pol roots id walk edge = .ok walk') :
    Added [edge.1] walk walk' ∧ walk'.edges = walk.edges + 1 ∧ walk'.edges ≤ pol.maxEdges := by
  obtain ⟨⟨⟩, hnum, h⟩ := bind_ok.mp h
  obtain ⟨⟨⟩, -, h⟩ := bind_ok.mp h
  rw [reject_ok, not_lt] at hnum
  split at h
  · rename_i node hnode
    obtain ⟨⟨⟩, -, h⟩ := bind_ok.mp h
    obtain ⟨⟨⟩, -, hlast⟩ := bind_ok.mp h
    cases hlast
    refine ⟨⟨fun other => ?_, fun _ hmem => hmem, fun _ hmem => .inl hmem,
      fun other hoth => .inl ?_, rfl, rfl, rfl, rfl⟩,
      rfl, hnum⟩
    · rw [OrdMap.contains_insert, or_comm, mem_singleton]
    · rw [mem_singleton.mp hoth, OrdMap.contains, hnode]
      rfl
  · cases h
    refine ⟨⟨fun other => ?_, fun _ hmem => ?_, fun _ hmem => ?_, fun other hoth => .inr ?_, rfl,
      rfl, rfl, rfl⟩, rfl, hnum⟩
    · rw [OrdMap.contains_insert, or_comm, mem_singleton]
    · rw [map_append]
      exact mem_append_left _ hmem
    · rw [map_append] at hmem
      exact mem_append.mp hmem
    · rw [map_append, mem_singleton.mp hoth]
      exact mem_append_right _ (.head _)

lemma Added.refl (walk : Walk) : Added [] walk walk :=
  ⟨by simp, fun _ hmem => hmem, fun _ hmem => .inl hmem, by simp, rfl, rfl, rfl, rfl⟩

lemma Added.trans {first rest : List ObjectId} {walk'' : Walk} (h : Added first walk walk')
    (h' : Added rest walk' walk'') : Added (first ++ rest) walk walk'' := by
  refine ⟨fun id => ?_, fun id hid => h'.queue id (h.queue id hid), fun id hid => ?_, fun id hid => ?_, ?_⟩
  · rw [h'.nodes, h.nodes, mem_append]
    tauto
  · have hque := h.queued id
    have hque' := h'.queued id hid
    rw [mem_append]
    tauto
  · rcases mem_append.mp hid with hid | hid
    · exact (h.fresh id hid).imp_right (h'.queue id)
    rcases h'.fresh id hid with hseen | hqu
    · rcases (h.nodes id).mp hseen with hfirst | hseen
      · exact (h.fresh id hfirst).imp_right (h'.queue id)
      · exact .inl hseen
    · exact .inr hqu
  · obtain ⟨hbounds, hmis, hblo, hinfo⟩ := h.rest
    obtain ⟨hbounds', hmis', hblo', hinfo'⟩ := h'.rest
    exact ⟨hbounds'.trans hbounds, hmis'.trans hmis, hblo'.trans hblo, hinfo'.trans hinfo⟩

lemma addEdges_eq_ok {edges : List (ObjectId × ObjectKind)}
    (h : edges.foldlM (addEdge pol roots id) walk = .ok walk') :
    Added (edges.map Prod.fst) walk walk' ∧ walk'.edges = walk.edges + edges.length ∧
      (edges = [] ∨ walk'.edges ≤ pol.maxEdges) := by
  induction edges generalizing walk with
  | nil =>
    cases h
    exact ⟨.refl walk', rfl, .inl rfl⟩
  | cons edge edges ih =>
    obtain ⟨middle, hfirst, hrest⟩ := bind_ok.mp h
    obtain ⟨hadd, hedg, hnum⟩ := addEdge_eq_ok hfirst
    obtain ⟨hadd', hedg', hnum'⟩ := ih hrest
    refine ⟨hadd.trans hadd', ?_, .inr ?_⟩
    · rw [hedg', hedg, length_cons]
      omega
    rcases hnum' with rfl | hnum'
    · rw [hedg']
      exact hnum
    · exact hnum'

lemma contains_recordRead (walk : Walk) (id other : ObjectId) (read : Visit) :
    (recordRead walk id read).nodes.contains other = walk.nodes.contains other := by
  unfold recordRead
  cases hnode : walk.nodes.get id with
  | none => rfl
  | some node =>
    have hid : walk.nodes.contains id := by simp [OrdMap.contains, hnode]
    rw [Bool.eq_iff_iff, OrdMap.contains_insert, or_comm]
    exact ⟨fun h => h.elim (· ▸ hid) fun h => h, .inr⟩

lemma edge_iff {id tgt : ObjectId} {object : Object} (hobj : cont id = some object) :
    Edge repo cont id tgt ↔
      tgt ∈ (object.edges repo.objects.format (decide (id ∈ repo.shallowRoots))).map Prod.fst := by
  constructor
  · rintro ⟨other, hoth, kind, hedge⟩
    rw [hobj] at hoth
    cases hoth
    exact mem_map_of_mem hedge
  · intro h
    obtain ⟨⟨tgt, kind⟩, hedge, rfl⟩ := mem_map.mp h
    exact ⟨object, hobj, kind, hedge⟩

/-- An identity is taken from the queue and its edges are added. -/
lemma Invariant.enter {read : Bool} (h : Invariant repo cont roots walk) (hqu : walk.queue = (id, read) :: queue)
    (hobj : cont id = some object) {visited : Visit}
    (hvis : visited = ⟨object.kind, object.data.length, (visitEdges repo pol id object).1,
      (visitEdges repo pol id object).2⟩)
    (hent : enter pol roots id { walk with queue := queue } visited = .ok walk') :
    Invariant repo cont roots walk' := by
  have hedges := fun target => @edge_iff repo cont id target object hobj
  obtain ⟨targets, hadd, hall⟩ : ∃ targets, Added targets (recordRead { walk with queue := queue } id visited) walk' ∧
      ∀ target, Edge repo cont id target ↔ target ∈ targets := by
    obtain ⟨⟨⟩, -, hent⟩ := bind_ok.mp hent
    split_ifs at hent with hkind
    · cases hent
      have hblob : object.kind = .blob := by rwa [hvis] at hkind
      exact ⟨[], .refl _, fun target => by simp [hedges, Object.edges, hblob]⟩
    obtain ⟨⟨⟩, -, hent⟩ := bind_ok.mp hent
    obtain ⟨⟨⟩, hbytes, hent⟩ := bind_ok.mp hent
    obtain ⟨added, hadd, hlast⟩ := bind_ok.mp hent
    rw [reject_ok, not_lt] at hbytes
    obtain ⟨hadded, hcount, hlimit⟩ := addEdges_eq_ok hadd
    have hsame : added = walk' := by
      split at hlast
      · cases hlast
      · exact Except.ok.inj hlast
    subst hsame hvis
    have hlen : (visitEdges repo pol id object).1.length ≤ pol.maxEdges := by
      rcases hlimit with hnil | hlimit
      · simp only at hnil
        rw [hnil]
        exact Nat.zero_le _
      · simp only at hcount
        omega
    refine ⟨_, ⟨hadded.nodes, hadded.queue, hadded.queued, hadded.fresh, hadded.rest⟩, fun target => ?_⟩
    rw [hedges, visitEdges_eq id (by simp only at hbytes; omega) hlen]
  have hid : walk.nodes.contains id := h.queued id (by simp [hqu])
  obtain ⟨hbounds, hmissing, hblobs, hinfo⟩ := hadd.rest
  have hseen : ∀ other, walk'.nodes.contains other ↔ other ∈ targets ∨ walk.nodes.contains other := by
    intro other
    rw [hadd.nodes, contains_recordRead]
  refine ⟨hbounds ▸ h.enabled, hmissing ▸ h.missing,
    fun other hoth => (hseen other).mpr (.inr (h.starts other hoth)),
    fun other hoth => (hseen other).mpr ?_, fun other hoth => ?_, ?_, ?_⟩
  · refine (hadd.queued other hoth).symm.imp_right fun hold => h.queued other ?_
    rw [hqu]
    exact .tail _ hold
  · rcases (hseen other).mp hoth with htarget | hold
    · exact (h.found id hid).step ((hall other).mpr htarget)
    · exact h.found other hold
  · refine h.followed.next (fun other hoth => (hseen other).mpr (.inr hoth))
      (fun other hedge => (hseen other).mpr (.inl ((hall other).mp hedge)))
      (fun other hoth => ?_) (fun other hoth => ?_)
    · rcases hoth with hoth | hoth
      · rw [hqu] at hoth
        rcases mem_cons.mp hoth with rfl | hoth
        · exact .inl rfl
        · exact .inr (.inl (hadd.queue other hoth))
      · exact .inr (.inr (hblobs ▸ hoth))
    · rcases (hseen other).mp hoth with htarget | hold
      · exact (hadd.fresh other htarget).imp (contains_recordRead _ _ _ _).symm.trans .inl
      · exact .inl hold
  · rw [hinfo, hvis]
    exact h.info.insert hobj object.data.length

lemma admit_error {bnds : Boundaries} (h : bnds.enabled = false) (objs : Objects) (id : ObjectId)
    (exp : Option ObjectKind) : bnds.admit objs pol id exp = .error (.missingObject id) := by
  unfold Boundaries.admit
  split
  · rfl
  · rfl
  · rfl
  · rw [if_pos h]

lemma Invariant.next (hids : repo.objects.Identified cont) {read : Bool}
    (h : Invariant repo cont roots walk) (hqu : walk.queue = (id, read) :: queue)
    (hnext : next repo pol roots walk id read queue = .ok walk') :
    Invariant repo cont roots walk' := by
  unfold Retention.next at hnext
  split_ifs at hnext with hread
  · cases hnext
    refine { h with queued := fun other hoth => h.queued other ?_, followed := fun other hoth => ?_ }
    · rw [hqu]
      exact .tail _ hoth
    refine (h.followed other hoth).imp_left ?_
    rintro (hmem | hmem)
    · rw [hqu] at hmem
      rcases mem_cons.mp hmem with rfl | hmem
      · exact .inr (by simp)
      · exact .inl hmem
    · exact .inr (mem_append_left _ hmem)
  · split at hnext
    · split_ifs at hnext
      obtain ⟨bnds, hadm, -⟩ := bind_ok.mp hnext
      rw [admit_error h.enabled] at hadm
      cases hadm
    · cases hnext
    · rename_i visited hvis
      unfold visit at hvis
      split at hvis
      · cases hvis
      · cases hvis
      · rename_i object hobj
        cases hvis
        exact h.enter hqu (hids.read hobj) rfl hnext

lemma Invariant.walkWith (hids : repo.objects.Identified cont) {rem : Nat}
    (h : Invariant repo cont roots walk) (hwalk : walkWith repo pol roots rem walk = .ok walk') :
    Invariant repo cont roots walk' ∧ walk'.queue = [] := by
  induction rem generalizing walk with
  | zero =>
    rw [Retention.walkWith] at hwalk
    split_ifs at hwalk with hemp
    cases hwalk
    exact ⟨h, hemp⟩
  | succ rem ih =>
    rw [Retention.walkWith] at hwalk
    split at hwalk
    · rename_i hemp
      cases hwalk
      exact ⟨h, hemp⟩
    · rename_i id read queue hqu
      obtain ⟨middle, hnext, hwalk⟩ := bind_ok.mp hwalk
      exact ih (h.next hids hqu hnext) hwalk

end Steps

section Walk

variable {objectInfo : OrdMap ObjectId ObjectInfo} {bnds : Boundaries}

lemma invariant_start (hinfo : InfoSound cont objectInfo) (hena : bnds.enabled = false) :
    Invariant repo cont roots (Walk.start roots objectInfo bnds) := by
  have hnod : ∀ id, (Walk.start roots objectInfo bnds).nodes.contains id ↔ roots.contains id := by
    intro id
    rw [Walk.start, OrdMap.contains_insertAll, @OrdMap.contains_iff _ _ _ id roots]
    simp [OrdMap.contains]
  have hqu : (Walk.start roots objectInfo bnds).queue.map Prod.fst = roots.entries.map Prod.fst := by
    simp [Walk.start]
  refine ⟨hena, fun _ => rfl, fun id hid => (hnod id).mpr hid, fun id hid => ?_, fun id hid => ?_,
    fun id hid => ?_,
    hinfo⟩
  · rw [hqu] at hid
    exact (hnod id).mpr (OrdMap.contains_iff.mpr hid)
  · exact .root ((hnod id).mp hid)
  · refine .inl (.inl ?_)
    rw [hqu]
    exact OrdMap.contains_iff.mp ((hnod id).mp hid)

lemma enterBlobs_eq_ok (hids : repo.objects.Identified cont) {walk walk' : Walk}
    {located : List (ObjectId × Option (ObjectKind × Nat))}
    (hloc : ∀ entry ∈ located, repo.objects.locate entry.1 = .ok entry.2)
    (h : Invariant repo cont roots walk)
    (hfold : located.foldlM (enterBlob repo pol) walk = .ok walk') :
    Invariant repo cont roots walk' ∧ walk'.nodes = walk.nodes ∧ walk'.queue = walk.queue ∧
      ∀ entry ∈ located, ∀ target, ¬ Edge repo cont entry.1 target := by
  induction located generalizing walk with
  | nil =>
    cases hfold
    exact ⟨h, rfl, rfl, by simp⟩
  | cons entry located ih =>
    obtain ⟨middle, hfirst, hrest⟩ := bind_ok.mp hfold
    have hen := hloc entry (.head _)
    unfold enterBlob at hfirst
    split at hfirst
    · obtain ⟨bnds, hadm, -⟩ := bind_ok.mp hfirst
      rw [admit_error h.enabled] at hadm
      cases hadm
    rename_i kind size hgot
    obtain ⟨⟨⟩, hkind, hmid⟩ := bind_ok.mp hfirst
    rw [reject_ok, not_not] at hkind
    subst hkind
    cases hmid
    rw [hgot] at hen
    obtain ⟨object, hobj, hblob⟩ := hids.locate hen
    have hstep : Invariant repo cont roots { walk with objectInfo := walk.objectInfo.insert entry.1 ⟨.blob, size⟩ } :=
      { h with info := hblob ▸ h.info.insert hobj size }
    obtain ⟨hend, hnod, hqu, hothe⟩ := ih (fun other hoth => hloc other (.tail _ hoth))
      hstep hrest
    refine ⟨hend, hnod, hqu, fun other hoth target hedge => ?_⟩
    rcases mem_cons.mp hoth with rfl | hoth
    · rw [edge_iff hobj] at hedge
      simp [Object.edges, hblob] at hedge
    · exact hothe other hoth target hedge

lemma walk_eq_ok (hids : repo.objects.Identified cont) {walked : Walked}
    (hinfo : InfoSound cont objectInfo)
    (hena : bnds.enabled = false) (hwalk : walk repo pol roots objectInfo bnds = .ok walked) :
    (∀ id, walked.reachable.contains id ↔ Reach (Edge repo cont) {id | roots.contains id} id) ∧
      InfoSound cont walked.objectInfo ∧ walked.boundaries.enabled = false := by
  obtain ⟨graph, hgra, hwalk⟩ := bind_ok.mp hwalk
  obtain ⟨located, hlocate, hwalk⟩ := bind_ok.mp hwalk
  obtain ⟨final, hfin, hlast⟩ := bind_ok.mp hwalk
  cases hlast
  obtain ⟨hinv, hemp⟩ := (invariant_start hinfo hena).walkWith hids hgra
  rw [wrapError_eq_ok] at hlocate
  have hfor : List.Forall₂ (fun id entry => entry.1 = id ∧ repo.objects.locate entry.1 = .ok entry.2)
      graph.blobs located := by
    refine (forall₂_of_mapM_eq_ok hlocate).imp fun id entry hen => ?_
    obtain ⟨_, hloc, rfl⟩ := map_ok.mp hen
    exact ⟨rfl, hloc⟩
  have hmaps : ∀ entry ∈ located, repo.objects.locate entry.1 = .ok entry.2 := by
    intro entry hen
    obtain ⟨id, -, -, hloc⟩ := forall₂_mem_left hfor.flip hen
    exact hloc
  obtain ⟨hend, hnod, hqu, hblob⟩ := enterBlobs_eq_ok hids hmaps hinv hfin
  refine ⟨fun id => ?_, hend.info, hend.enabled⟩
  have hkeep : (final.nodes.entries.filter fun node => ! final.missing.contains node.1) =
      final.nodes.entries :=
    filter_eq_self.mpr fun node _ => by rw [hend.missing]; rfl
  have hcon : (OrdMap.insertAll (.empty : IdSet) ((final.nodes.entries.filter
      fun node => ! final.missing.contains node.1).map fun node => (node.1, ()))).contains id ↔
      final.nodes.contains id := by
    rw [hkeep, OrdMap.contains_insertAll, @OrdMap.contains_iff _ _ _ id final.nodes]
    simp [OrdMap.contains]
  have hcl : Closed (Edge repo cont) {id | final.nodes.contains id} := by
    intro other hoth target hedge
    rw [hnod] at hoth ⊢
    rcases hinv.followed other hoth with (hwait | hwait) | hdone
    · rw [hemp] at hwait
      cases hwait
    · obtain ⟨entry, hen, rfl, -⟩ := forall₂_mem_left hfor hwait
      exact absurd hedge (hblob entry hen target)
    · exact hdone target hedge
  rw [hcon]
  exact ⟨hend.found id, fun hrea => hcl.reach (hend.starts · ·) hrea⟩

end Walk

end Retention

end Girt
