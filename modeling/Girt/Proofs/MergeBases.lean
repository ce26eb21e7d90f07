import Girt.Proofs.History

/-!
# Merge bases

A query fails when a commit cannot be read, a limit is passed or there is a cycle, and otherwise gives the best
common ancestors.
-/

namespace Girt.History
open ByteLib GraphLib List Relation

variable {objs : CommitObjects} {lim : HistoryLimits} {roots : List ObjectId} {limit rem : Nat}
  {graph : Graph} {left right : ObjectId}

namespace CommitObjects

def parents (objs : CommitObjects) (id : ObjectId) : Except HistoryError (List ObjectId) :=
  (objs.verifiedParents id).map (objs.cut id)

def Parent (objs : CommitObjects) (a b : ObjectId) : Prop := ∃ parents, objs.parents a = .ok parents ∧ b ∈ parents

def Reached (objs : CommitObjects) (roots : List ObjectId) : ObjectId → Prop := Reach objs.Parent {id | id ∈ roots}

/-- Every commit that the roots reach can be read, and no distinct ones of them pass a limit. -/
structure Readable (objs : CommitObjects) (lim : HistoryLimits) (roots : List ObjectId) : Prop where
  read : ∀ id, objs.Reached roots id → ∃ parents, objs.parents id = .ok parents
  commits : ∀ ids : List ObjectId, ids.Nodup → (∀ id ∈ ids, objs.Reached roots id) → ids.length ≤ lim.maxCommits
  occurrences : ∀ nodes : List (ObjectId × List ObjectId), (nodes.map Prod.fst).Nodup →
    (∀ node ∈ nodes, objs.Reached roots node.1 ∧ objs.parents node.1 = .ok node.2) →
    (nodes.flatMap Prod.snd).length ≤ lim.maxParents

lemma storedParents_ne_cycle {id : ObjectId} : objs.storedParents id ≠ .error .cycle := by
  unfold storedParents
  cases objs.read id with
  | error source => exact fun h => by cases h
  | ok found =>
    cases found with
    | none => exact fun h => by cases h
    | some object =>
      intro h
      by_cases hkind : object.kind = .commit
      · cases hpar : Commit.parse objs.format object.data with
        | error source | ok commit => simp [wrapError, reject, hkind, hpar, bind, Except.bind] at h
      · simp [wrapError, reject, hkind, bind, Except.bind] at h

lemma verifiedParents_ne_cycle {id : ObjectId} : objs.verifiedParents id ≠ .error .cycle := by
  unfold verifiedParents
  split
  · exact fun h => by cases h
  · exact storedParents_ne_cycle

end CommitObjects

namespace Graph

lemma foldlM_discover (ids : List ObjectId) (hnd : graph.ids.Nodup) (hlen : graph.ids.length ≤ limit) :
    (∃ pend, ids.foldlM (discover limit) graph = .ok ⟨graph.nodes, pend⟩ ∧
        (ids ⊆ (⟨graph.nodes, pend⟩ : Graph).ids ∧ graph.ids ⊆ (⟨graph.nodes, pend⟩ : Graph).ids) ∧
        (⟨graph.nodes, pend⟩ : Graph).ids.Nodup ∧ (⟨graph.nodes, pend⟩ : Graph).ids.length ≤ limit ∧
        ∀ id ∈ (⟨graph.nodes, pend⟩ : Graph).ids, id ∈ graph.ids ∨ id ∈ ids) ∨
      ids.foldlM (discover limit) graph = .error (.limit "commits") ∧
        ∃ many : List ObjectId, many.Nodup ∧ (∀ id ∈ many, id ∈ graph.ids ∨ id ∈ ids) ∧ limit < many.length := by
  induction ids generalizing graph with
  | nil => exact .inl ⟨graph.pending, rfl, ⟨nil_subset _, Subset.refl _⟩, hnd, hlen, fun id hid => .inl hid⟩
  | cons id ids ih =>
    rw [foldlM_cons]
    by_cases hmem : id ∈ graph.ids
    · have hstep : discover limit graph id = .ok graph := if_pos hmem
      rw [hstep]
      rcases ih hnd hlen with ⟨pend, hfold, hsub, hnd, hlen, hids⟩ | ⟨hfold, many, hmany, hids, hlt⟩
      · exact .inl ⟨pend, hfold, ⟨cons_subset.mpr ⟨hsub.2 hmem, hsub.1⟩, hsub.2⟩, hnd, hlen,
          fun a ha => (hids a ha).imp_right (mem_cons_of_mem _)⟩
      · exact .inr ⟨hfold, many, hmany, fun a ha => (hids a ha).imp_right (mem_cons_of_mem _), hlt⟩
    · by_cases hfull : graph.ids.length = limit
      · have hstep : discover limit graph id = .error (.limit "commits") := by rw [discover, if_neg hmem, if_pos hfull]
        refine .inr ⟨by rw [hstep]; rfl, id :: graph.ids, nodup_cons.mpr ⟨hmem, hnd⟩, ?_, by simp [hfull]⟩
        intro a ha
        exact (mem_cons.mp ha).symm.imp_right fun heq : a = id => heq ▸ (.head _)
      · have hstep : discover limit graph id = .ok ⟨graph.nodes, graph.pending ++ [id]⟩ := by
          rw [discover, if_neg hmem, if_neg hfull]
        have hids' : (⟨graph.nodes, graph.pending ++ [id]⟩ : Graph).ids = graph.ids ++ [id] :=
          (append_assoc ..).symm
        have hback : ∀ a, (a ∈ graph.ids ++ [id] ∨ a ∈ ids) → a ∈ graph.ids ∨ a ∈ id :: ids := by
          simp [or_assoc]
        rw [hstep]
        have hnext := @ih ⟨graph.nodes, graph.pending ++ [id]⟩
        rw [hids'] at hnext
        rcases hnext (nodup_append.mpr ⟨hnd, nodup_singleton _, fun _ ha _ hb heq => hmem (by simp_all)⟩)
          (by rw [length_append, length_singleton]; omega) with
          ⟨pend, hfold, hsub, hnd, hlen, hids⟩ | ⟨hfold, many, hmany, hids, hlt⟩
        · have hold := append_subset.mp hsub.2
          exact .inl ⟨pend, hfold, ⟨cons_subset.mpr ⟨hold.2 (by simp), hsub.1⟩, hold.1⟩, hnd, hlen,
            fun a ha => hback a (hids a ha)⟩
        · exact .inr ⟨hfold, many, hmany, fun a ha => hback a (hids a ha), hlt⟩

structure Exploring (objs : CommitObjects) (lim : HistoryLimits) (roots : List ObjectId) (rem : Nat)
    (graph : Graph) : Prop extends graph.Formed where
  bounded : graph.ids.length ≤ lim.maxCommits
  budget : rem + (graph.nodes.flatMap Prod.snd).length = lim.maxParents
  read : ∀ node ∈ graph.nodes, objs.parents node.1 = .ok node.2
  found : ∀ id ∈ graph.ids, objs.Reached roots id
  roots : roots ⊆ graph.ids

section Step

variable {nodes : List (ObjectId × List ObjectId)} {id : ObjectId} {pend parents : List ObjectId}
  (h : Exploring objs lim roots rem ⟨nodes, id :: pend⟩)
include h

lemma Exploring.stopped : Formed ⟨nodes ++ (id :: pend).map fun id => (id, []), []⟩ := by
  have heq : (⟨nodes ++ (id :: pend).map fun id => (id, []), []⟩ : Graph).ids =
      (⟨nodes, id :: pend⟩ : Graph).ids := by
    simp [ids, Function.comp_def]
  refine ⟨heq ▸ h.nodup, ?_⟩
  intro node hnode par hpar
  rw [heq]
  rcases mem_append.mp hnode with hnode | hnode
  · exact h.closed node hnode par hpar
  · obtain ⟨other, -, rfl⟩ := mem_map.mp hnode
    cases hpar

variable (hparents : objs.parents id = .ok parents)
include hparents

lemma Exploring.read_next : ∀ node ∈ nodes ++ [(id, parents)],
    objs.Reached roots node.1 ∧ objs.parents node.1 = .ok node.2 := by
  intro node hnode
  rcases mem_append.mp hnode with hnode | hnode
  · exact ⟨h.found _ (mem_append_left _ (mem_map_of_mem hnode)), h.read node hnode⟩
  · obtain rfl := mem_singleton.mp hnode
    exact ⟨h.found id (by simp [ids]), hparents⟩

lemma Exploring.not_readable (hover : rem < parents.length) : ¬ objs.Readable lim roots := by
  intro hread
  have hnd : ((nodes ++ [(id, parents)]).map Prod.fst).Nodup := by
    refine h.nodup.sublist ?_
    simp [ids]
  have hsum := hread.occurrences _ hnd (h.read_next hparents)
  have hbud := h.budget
  simp only [flatMap_append, flatMap_singleton, length_append] at hsum hbud
  omega

lemma Exploring.expand (hle : parents.length ≤ rem) :
    (∃ pend', parents.foldlM (discover lim.maxCommits) ⟨nodes ++ [(id, parents)], pend⟩ =
          .ok ⟨nodes ++ [(id, parents)], pend'⟩ ∧
        Exploring objs lim roots (rem - parents.length) ⟨nodes ++ [(id, parents)], pend'⟩) ∨
      parents.foldlM (discover lim.maxCommits) ⟨nodes ++ [(id, parents)], pend⟩ = .error (.limit "commits") ∧
        ¬ objs.Readable lim roots := by
  have hids : (⟨nodes ++ [(id, parents)], pend⟩ : Graph).ids = (⟨nodes, id :: pend⟩ : Graph).ids :=
    by simp [ids]
  have hnam : ∀ a, a ∈ (⟨nodes, id :: pend⟩ : Graph).ids ∨ a ∈ parents → objs.Reached roots a := by
    rintro a (ha | ha)
    · exact h.found a ha
    · exact (h.found id (by simp [ids])).step ⟨_, hparents, ha⟩
  have hcas := @foldlM_discover lim.maxCommits ⟨nodes ++ [(id, parents)], pend⟩ parents
    (hids ▸ h.nodup) (hids ▸ h.bounded)
  rw [hids] at hcas
  rcases hcas with ⟨pend', hfold, hsub, hnd, hlen, hmem⟩ | ⟨hfold, many, hmany, hmem, hlt⟩
  · refine .inl ⟨pend', hfold, ⟨hnd, fun node hnode par hpar => ?_⟩, hlen, ?_,
      fun node hnode => (h.read_next hparents node hnode).2, fun a ha => hnam a (hmem a ha),
      fun a ha => hsub.2 (h.roots ha)⟩
    · rcases mem_append.mp hnode with hnode | hnode
      · exact hsub.2 (h.closed node hnode par hpar)
      · obtain rfl := mem_singleton.mp hnode
        exact hsub.1 hpar
    · have hbud := h.budget
      simp only [flatMap_append, flatMap_singleton, length_append] at hbud ⊢
      omega
  · refine .inr ⟨hfold, fun hread => ?_⟩
    exact absurd (hread.commits many hmany fun a ha => hnam a (hmem a ha)) (by omega)

end Step

/-- Exploring ends with the commits that the roots reach, or with the error of one that cannot be
read or of a limit. -/
lemma Exploring.run (stop : Option ObjectId) (fuel : Nat) (h : Exploring objs lim roots rem graph)
    (hfuel : fuel + graph.nodes.length = lim.maxCommits) :
    (∃ graph', explore objs lim.maxCommits stop fuel rem graph = .ok graph' ∧ graph'.Formed ∧
        (stop = none → graph'.pending = [] ∧ ∃ rem', Exploring objs lim roots rem' graph')) ∨
      ∃ error, error ≠ .cycle ∧ explore objs lim.maxCommits stop fuel rem graph = .error error ∧
        ¬ objs.Readable lim roots := by
  obtain ⟨nodes, pend⟩ := graph
  induction fuel generalizing nodes pend rem with
  | zero =>
    have hlen := h.bounded
    rw [ids, length_append, length_map] at hlen
    obtain rfl : pend = [] := length_eq_zero_iff.mp (by dsimp only at hfuel hlen; omega)
    exact .inl ⟨⟨nodes, []⟩, rfl, h.toFormed, fun _ => ⟨rfl, rem, h⟩⟩
  | succ fuel ih =>
    cases pend with
    | nil => exact .inl ⟨⟨nodes, []⟩, rfl, h.toFormed, fun _ => ⟨rfl, rem, h⟩⟩
    | cons id pend =>
      rw [explore]
      cases hver : objs.verifiedParents id with
      | error error =>
        refine .inr ⟨error, fun heq => CommitObjects.verifiedParents_ne_cycle (heq ▸ hver), rfl,
          fun hread => ?_⟩
        obtain ⟨parents, hparents⟩ := hread.read id (h.found id (by simp [ids]))
        rw [CommitObjects.parents, hver] at hparents
        cases hparents
      | ok verified =>
        have hparents : objs.parents id = .ok (objs.cut id verified) := by
          rw [CommitObjects.parents, hver]
          rfl
        simp only [bind, Except.bind]
        by_cases hstop : stop = some id
        · rw [if_pos hstop]
          exact .inl ⟨_, rfl, h.stopped, fun hnone => by rw [hnone] at hstop; cases hstop⟩
        rw [if_neg hstop]
        by_cases hover : rem < (objs.cut id verified).length
        · exact .inr ⟨.limit "parent occurrences", by simp, by simp [reject, hover], h.not_readable hparents hover⟩
        simp only [reject, hover, if_false]
        rcases h.expand hparents (not_lt.mp hover) with ⟨pend', hfold, hnext⟩ | ⟨hfold, hread⟩
        · rw [hfold]
          refine ih _ _ hnext ?_
          simp only [length_append, length_singleton] at hfuel ⊢
          omega
        · rw [hfold]
          exact .inr ⟨_, by simp, rfl, hread⟩

lemma exploreRoots_cases (objs : CommitObjects) (roots : List ObjectId) (lim : HistoryLimits)
    (stop : Option ObjectId) :
    (∃ graph, exploreRoots objs roots lim stop = .ok graph ∧ graph.Formed ∧
        (stop = none → graph.pending = [] ∧ ∃ rem, Exploring objs lim roots rem graph)) ∨
      ∃ err, err ≠ .cycle ∧ exploreRoots objs roots lim stop = .error err ∧
        ¬ objs.Readable lim roots := by
  have hroot : ∀ a, a ∈ (⟨[], []⟩ : Graph).ids ∨ a ∈ roots → objs.Reached roots a := by
    rintro a (ha | ha)
    · cases ha
    · exact .root ha
  unfold exploreRoots
  rcases @foldlM_discover lim.maxCommits ⟨[], []⟩ roots nodup_nil (Nat.zero_le _) with
    ⟨pend, hfold, hsub, hnd, hlen, hmem⟩ | ⟨hfold, many, hmany, hmem, hlt⟩
  · rw [hfold]
    exact Exploring.run stop lim.maxCommits ⟨⟨hnd, by simp⟩, hlen, rfl,
      by simp, fun a ha => hroot a (hmem a ha), hsub.1⟩ rfl
  · rw [hfold]
    refine .inr ⟨_, by simp, rfl, fun hread => ?_⟩
    exact absurd (hread.commits many hmany fun a ha => hroot a (hmem a ha)) (by omega)

section Complete

variable (h : Exploring objs lim roots rem graph) (hpending : graph.pending = [])
include h hpending

lemma Exploring.mem_nodes {id : ObjectId} (hid : id ∈ graph.ids) :
    (id, graph.parents id) ∈ graph.nodes := by
  rw [ids, hpending, append_nil] at hid
  obtain ⟨node, hnode, rfl⟩ := mem_map.mp hid
  rwa [h.parents_eq hnode]

lemma Exploring.parent_iff {a b : ObjectId} (ha : a ∈ graph.ids) :
    objs.Parent a b ↔ graph.Edge a b := by
  have hread := h.read _ (h.mem_nodes hpending ha)
  constructor
  · rintro ⟨parents, hparents, hb⟩
    rw [hread] at hparents
    cases hparents
    exact hb
  · exact fun hedge => ⟨_, hread, hedge⟩

lemma Exploring.closed_parent : Closed objs.Parent {id | id ∈ graph.ids} := fun _ ha _ hb =>
  (h.edge ((h.parent_iff hpending ha).mp hb)).2

lemma Exploring.parent_of_edge : graph.Edge ≤ objs.Parent := fun _ _ hedge =>
  (h.parent_iff hpending (h.edge hedge).1).mpr hedge

lemma Exploring.path_iff {a b : ObjectId} (ha : a ∈ graph.ids) :
    ReflTransGen objs.Parent a b ↔ ReflTransGen graph.Edge a b :=
  ⟨fun hpath => ((h.closed_parent hpending).path (fun _ ha _ => (h.parent_iff hpending ha).mp) ha hpath).2,
    ReflTransGen.mono (h.parent_of_edge hpending) a b⟩

lemma Exploring.mem_ids_iff {id : ObjectId} : id ∈ graph.ids ↔ objs.Reached roots id :=
  ⟨h.found id, fun hrea => (h.closed_parent hpending).reach h.roots hrea⟩

lemma Exploring.readable : objs.Readable lim roots where
  read id hid := ⟨_, h.read _ (h.mem_nodes hpending ((h.mem_ids_iff hpending).mpr hid))⟩
  commits ids hnd hids :=
    (hnd.subperm fun id hid => (h.mem_ids_iff hpending).mpr (hids id hid)).length_le.trans h.bounded
  occurrences nodes hnd hnod := by
    have hsub : nodes ⊆ graph.nodes := by
      intro node hnode
      have hmem := h.mem_nodes hpending ((h.mem_ids_iff hpending).mpr (hnod node hnode).1)
      have hread := h.read (node.1, graph.parents node.1) hmem
      simp only [(hnod node hnode).2, Except.ok.injEq] at hread
      rwa [← hread] at hmem
    obtain ⟨kept, hperm, hsymbol⟩ := (hnd.of_map _).subperm hsub
    have hle := (hsymbol.flatMap Prod.snd).length_le
    rw [(hperm.flatMap_right Prod.snd).length_eq] at hle
    exact hle.trans (h.budget ▸ Nat.le_add_left _ _)

lemma Exploring.cycle_iff :
    (∃ id, TransGen graph.Edge id id) ↔
      ∃ id, objs.Reached roots id ∧ TransGen objs.Parent id id := by
  constructor
  · rintro ⟨id, hcyc⟩
    obtain ⟨next, hfirst, -⟩ := TransGen.head'_iff.mp hcyc
    exact ⟨id, h.found id (h.edge hfirst).1, TransGen.mono (h.parent_of_edge hpending) id id hcyc⟩
  · rintro ⟨id, hid, hcyc⟩
    exact ⟨id, (h.closed_parent hpending).cycle (fun _ ha _ => (h.parent_iff hpending ha).mp)
      ((h.mem_ids_iff hpending).mpr hid) hcyc⟩

end Complete

end Graph

def CommitObjects.Common (objs : CommitObjects) (left right id : ObjectId) : Prop :=
  ReflTransGen objs.Parent left id ∧ ReflTransGen objs.Parent right id

/-- Common ancestors that are not proper ancestors of another common ancestor. -/
def CommitObjects.Best (objs : CommitObjects) (left right id : ObjectId) : Prop :=
  objs.Common left right id ∧ ∀ other, objs.Common left right other → ¬ TransGen objs.Parent other id

lemma bases_best (h : Graph.Exploring objs lim [left, right] rem graph) (hpending : graph.pending = [])
    (common : List ObjectId)
    (hcommon : common = graph.ids.filter fun id => id ∈ graph.reachable left ∧ id ∈ graph.reachable right) :
    ((common.filter (· ∉ common.flatMap graph.parents)).mergeSort (· ≤ ·)).Pairwise (· < ·) ∧
      ∀ id, id ∈ (common.filter (· ∉ common.flatMap graph.parents)).mergeSort (· ≤ ·) ↔ objs.Best left right id := by
  have hleft : left ∈ graph.ids := h.roots (by simp)
  have hrt : right ∈ graph.ids := h.roots (by simp)
  have hmem : ∀ id, id ∈ common ↔ objs.Common left right id := by
    intro id
    rw [hcommon, mem_filter, decide_eq_true_eq, Graph.mem_reachable h.toFormed hleft,
      Graph.mem_reachable h.toFormed hrt,
      ← h.path_iff hpending hleft, ← h.path_iff hpending hrt]
    exact and_iff_right_of_imp fun hboth => (h.mem_ids_iff hpending).mpr ⟨left, by simp, hboth.1⟩
  have hperm := mergeSort_perm (common.filter (· ∉ common.flatMap graph.parents)) (· ≤ ·)
  constructor
  · have hnd : common.Nodup := hcommon ▸ h.nodup.filter _
    exact (sortedLE_mergeSort.pairwise.and (hperm.nodup_iff.mpr (hnd.filter _))).imp fun hle =>
      lt_of_le_of_ne hle.1 hle.2
  intro id
  rw [hperm.mem_iff, mem_filter, hmem, decide_eq_true_eq, mem_flatMap]
  refine and_congr_right fun hid => ⟨fun hnot other hoth hpath => hnot ?_, ?_⟩
  · -- the last commit before the ancestor on the way from another common one is common too
    obtain ⟨last, hbf, hlast⟩ := TransGen.tail'_iff.mp hpath
    have hcommon : objs.Common left right last := ⟨hoth.1.trans hbf, hoth.2.trans hbf⟩
    exact ⟨last, (hmem last).mpr hcommon, (h.parent_iff hpending
      ((h.mem_ids_iff hpending).mpr ⟨left, by simp, hcommon.1⟩)).mp hlast⟩
  · rintro hbest ⟨last, hlast, hedge⟩
    exact hbest last ((hmem last).mp hlast) (.single (h.parent_of_edge hpending _ _ hedge))

/-- Reading reports a cycle exactly when the explored edges have one. Merge bases fail otherwise only
when a commit cannot be read or a limit is passed; without a cycle they are the best common ancestors,
in order. -/
theorem mergeBases_best (objects : CommitObjects) (limits : HistoryLimits) :
    (∀ roots stop, Graph.readUntil objects roots limits stop = .error .cycle ↔
      ∃ graph, Graph.exploreRoots objects roots limits stop = .ok graph ∧ ∃ id, TransGen graph.Edge id id) ∧
    ∀ left right,
      (¬ objects.Readable limits [left, right] ∧
        ∃ error, error ≠ .cycle ∧ mergeBases objects left right limits = .error error) ∨
      objects.Readable limits [left, right] ∧
        (((∃ id, objects.Reached [left, right] id ∧ TransGen objects.Parent id id) ∧
            mergeBases objects left right limits = .error .cycle) ∨
          ((¬ ∃ id, objects.Reached [left, right] id ∧ TransGen objects.Parent id id) ∧
            ∃ bases, mergeBases objects left right limits = .ok bases ∧ bases.Pairwise (· < ·) ∧
              ∀ id, id ∈ bases ↔ objects.Best left right id)) := by
  refine ⟨fun roots stop => ?_, fun left right => ?_⟩
  · unfold Graph.readUntil
    rcases Graph.exploreRoots_cases objects roots limits stop with ⟨graph, hgra, hfor, -⟩ | ⟨error,
      hne, hgra, -⟩
    · have hiff : (∃ explored, .ok graph = (.ok explored : Except HistoryError Graph) ∧
        ∃ id, TransGen explored.Edge id id) ↔
          ∃ id, TransGen graph.Edge id id := by simp
      rw [hgra, hiff]
      rcases Graph.checkAcyclic_cases hfor with ⟨htest, hcyc⟩ | ⟨htest, hcyc⟩
      · simp [htest, hcyc, bind, Except.bind]
      · simp [htest, hcyc, bind, Except.bind]
    · simp [hgra, hne, bind, Except.bind]
  · unfold mergeBases Graph.readUntil
    rcases Graph.exploreRoots_cases objects [left, right] limits none with
      ⟨graph, hgra, hfor, hnone⟩ | ⟨error, hne, hgra, hread⟩
    · obtain ⟨hpending, remaining, h⟩ := hnone rfl
      rw [hgra]
      refine .inr ⟨h.readable hpending, ?_⟩
      rw [← h.cycle_iff hpending]
      rcases Graph.checkAcyclic_cases hfor with ⟨htest, hcyc⟩ | ⟨htest, hcyc⟩
      · exact .inr ⟨hcyc, _, by simp only [htest, bind, Except.bind], bases_best h hpending _ rfl⟩
      · exact .inl ⟨hcyc, by simp [htest, bind, Except.bind]⟩
    · exact .inl ⟨hread, error, hne, by simp [hgra, bind, Except.bind]⟩

end Girt.History
