import Girt.History.Graph
import Girt.Lib.Graph

/-!
# Reading history

A traversal visits all commits exactly when there is no cycle, and marking finds what a commit reaches.
-/

namespace Girt.History
open ByteLib GraphLib List Relation

namespace Graph

variable {graph : Graph} {kids : ObjectId → Nat} {done ready marks pend : List ObjectId} {id root : ObjectId}

def Edge (graph : Graph) (a b : ObjectId) : Prop := b ∈ graph.parents a

/-- The commits are distinct, and their parents are among them. -/
structure Formed (graph : Graph) : Prop where
  nodup : graph.ids.Nodup
  closed : ∀ node ∈ graph.nodes, ∀ par ∈ node.2, par ∈ graph.ids

lemma mem_nodes_of_edge {a b : ObjectId} (h : graph.Edge a b) :
    ∃ parents, (a, parents) ∈ graph.nodes ∧ b ∈ parents := by
  unfold Edge parents at h
  cases hfind : graph.nodes.find? (·.1 = a) with
  | none => simp [hfind] at h
  | some node =>
    have hid := find?_some hfind
    simp only [decide_eq_true_eq] at hid
    exact ⟨node.2, hid ▸ mem_of_find?_eq_some hfind, by simpa [hfind] using h⟩

lemma Formed.parents_eq (h : graph.Formed) {node : ObjectId × List ObjectId}
    (hnode : node ∈ graph.nodes) : graph.parents node.1 = node.2 := by
  have hsome : (graph.nodes.find? (·.1 = node.1)).isSome := find?_isSome.mpr ⟨node, hnode, by simp⟩
  obtain ⟨found, hgot⟩ := Option.isSome_iff_exists.mp hsome
  have hid := find?_some hgot
  have heq : found = node := inj_on_of_nodup_map (nodup_append.mp h.nodup).1
    (mem_of_find?_eq_some hgot) hnode
    (by simpa using hid)
  rw [parents, hgot, heq]
  rfl

lemma Formed.edge (h : graph.Formed) {a b : ObjectId} (hedge : graph.Edge a b) :
    a ∈ graph.ids ∧ b ∈ graph.ids := by
  obtain ⟨pars, hnode, hb⟩ := mem_nodes_of_edge hedge
  exact ⟨mem_append_left _ (mem_map_of_mem hnode), h.closed _ hnode b hb⟩

section Acyclic

lemma foldl_release (parents : List ObjectId) (kids : ObjectId → Nat) (ready : List ObjectId)
    (h : ∀ id, parents.count id ≤ kids id) :
    ∃ fresh, parents.foldl release (kids, ready) = (fun id => kids id - parents.count id, ready ++ fresh) ∧
      fresh.Nodup ∧ ∀ id, id ∈ fresh ↔ id ∈ parents ∧ kids id = parents.count id := by
  induction parents generalizing kids ready with
  | nil => exact ⟨[], by simp, nodup_nil, by simp⟩
  | cons par parents ih =>
    have hpos := h par
    rw [count_cons_self] at hpos
    have hle : ∀ id, parents.count id ≤ Function.update kids par (kids par - 1) id := by
      intro id
      have hid := h id
      by_cases heq : id = par
      · subst heq
        rw [Function.update_self]
        omega
      · rwa [Function.update_of_ne heq, ← count_cons_of_ne (Ne.symm heq)]
    obtain ⟨fresh, hfold, hnd, hfr⟩ := ih _ (if kids par - 1 = 0 then ready ++ [par] else ready) hle
    have hnum : ∀ id, Function.update kids par (kids par - 1) id - parents.count id =
        kids id - (par :: parents).count id := by
      intro id
      by_cases heq : id = par
      · subst heq
        rw [Function.update_self, count_cons_self]
        omega
      · rw [Function.update_of_ne heq, count_cons_of_ne (Ne.symm heq)]
    rw [funext hnum] at hfold
    by_cases hlast : kids par = 1
    · -- the last edge: the parent is ready, and does not occur again
      have hnot : par ∉ parents := count_eq_zero.mp (by omega)
      refine ⟨par :: fresh, ?_, ?_, fun id => ?_⟩
      · simpa [release, hlast] using hfold
      · exact nodup_cons.mpr ⟨fun hmem => hnot ((hfr par).mp hmem).1, hnd⟩
      rw [mem_cons, hfr id]
      by_cases heq : id = par
      · subst heq
        simp [hlast, count_eq_zero.mpr hnot]
      · simp [heq, count_cons_of_ne (Ne.symm heq)]
    · refine ⟨fresh, ?_, hnd, fun id => ?_⟩
      · rw [foldl_cons]
        simp only [release]
        rw [if_neg (by omega)] at hfold ⊢
        rw [hfold]
      · rw [hfr id]
        by_cases heq : id = par
        · subst heq
          rw [Function.update_self, count_cons_self]
          constructor
          · rintro ⟨hmem, heq⟩
            exact ⟨.head _, by omega⟩
          · rintro ⟨-, heq⟩
            exact ⟨count_pos_iff.mp (by omega), by omega⟩
        · simp [heq, count_cons_of_ne (Ne.symm heq)]

/-- The counters hold the edges from commits that were not visited, and a commit is ready, or was
visited, when it has none of them. -/
structure Draining (graph : Graph) (kids : ObjectId → Nat) (done ready : List ObjectId) : Prop where
  nodup : (done ++ ready).Nodup
  counts : ∀ id, kids id = ((graph.ids.filter (· ∉ done)).flatMap graph.parents).count id
  clear : ∀ id, id ∈ done ++ ready ↔ id ∈ graph.ids ∧ kids id = 0
  acyclic : ∀ id ∈ done ++ ready, ¬ TransGen graph.Edge id id

lemma Draining.subset (h : graph.Draining kids done ready) : done ++ ready ⊆ graph.ids := fun id hid =>
  ((h.clear id).mp hid).1

lemma Draining.step (h : graph.Draining kids done (id :: ready)) (hfor : graph.Formed) :
    graph.Draining ((graph.parents id).foldl release (kids, ready)).1 (done ++ [id])
      ((graph.parents id).foldl release (kids, ready)).2 := by
  have hid : id ∈ graph.ids := h.subset (by simp)
  have hnew : id ∉ done := fun hmem => (nodup_append.mp h.nodup).2.2 id hmem id (.head _) rfl
  have hperm : graph.ids.filter (· ∉ done) ~ id :: graph.ids.filter (· ∉ done ++ [id]) := by
    refine (perm_ext_iff_of_nodup (hfor.nodup.filter _)
      (nodup_cons.mpr ⟨by simp, hfor.nodup.filter _⟩)).mpr fun a => ?_
    by_cases ha : a = id
    · simp [ha, hid, hnew]
    · simp [ha]
  have hcou : ∀ a, kids a =
      (graph.parents id).count a + ((graph.ids.filter (· ∉ done ++ [id])).flatMap graph.parents).count a := by
    intro a
    rw [h.counts, (hperm.flatMap_right _).count_eq, flatMap_cons, count_append]
  obtain ⟨fresh, hfold, hnd, hfr⟩ := foldl_release (graph.parents id) kids ready fun a => by
    rw [hcou a]
    omega
  have hleft : ∀ a, kids a - (graph.parents id).count a =
      ((graph.ids.filter (· ∉ done ++ [id])).flatMap graph.parents).count a := fun a => by
    rw [hcou a]
    omega
  have hpos : ∀ a ∈ fresh, kids a ≠ 0 := by
    intro a ha hzero
    obtain ⟨hmem, heq⟩ := (hfr a).mp ha
    exact absurd (count_pos_iff.mpr hmem) (by omega)
  have hlist : done ++ [id] ++ (ready ++ fresh) = done ++ id :: ready ++ fresh := by simp
  rw [hfold]
  constructor
  · rw [hlist, nodup_append]
    exact ⟨h.nodup, hnd, fun a ha b hb heq => hpos b hb (heq ▸ ((h.clear a).mp ha).2)⟩
  · exact hleft
  · intro a
    rw [hlist, mem_append, h.clear a, hfr a]
    have hle := hcou a
    constructor
    · rintro (⟨ha, hzero⟩ | ⟨ha, heq⟩)
      · exact ⟨ha, by simp [hzero]⟩
      · exact ⟨(hfor.edge ha).2, by simp [heq]⟩
    rintro ⟨ha, hzero⟩
    by_cases hold : kids a = 0
    · exact .inl ⟨ha, hold⟩
    · dsimp only at hzero
      exact .inr ⟨count_pos_iff.mp (by omega), by omega⟩
  · intro a ha
    rw [hlist] at ha
    rcases mem_append.mp ha with ha | ha
    · exact h.acyclic a ha
    -- all edges into a new commit come from visited ones, which lie on no cycle
    refine no_cycle_of_edges fun b hedge => h.acyclic b ?_
    by_contra hnot
    have hzero : ((graph.ids.filter (· ∉ done ++ [id])).flatMap graph.parents).count a = 0 := by
      rw [← hleft a, ((hfr a).mp ha).2]
      omega
    rw [count_eq_zero, mem_flatMap] at hzero
    refine hzero ⟨b, mem_filter.mpr ⟨(hfor.edge hedge).1, ?_⟩, hedge⟩
    simp only [mem_append, mem_cons, not_or] at hnot
    simp [hnot.1, hnot.2.1]

lemma Draining.run (hfor : graph.Formed) (fuel : Nat) (h : graph.Draining kids done ready)
    (hfuel : fuel + done.length = graph.ids.length) :
    ∃ kids' done', graph.Draining kids' done' [] ∧
      graph.drain fuel kids ready done.length = done'.length := by
  induction fuel generalizing kids done ready with
  | zero =>
    have hlen := (h.nodup.subperm h.subset).length_le
    rw [length_append] at hlen
    obtain rfl : ready = [] := length_eq_zero_iff.mp (by omega)
    exact ⟨kids, done, h, rfl⟩
  | succ fuel ih =>
    cases ready with
    | nil => exact ⟨kids, done, h, rfl⟩
    | cons id ready =>
      obtain ⟨kids', done', hdone, hdra⟩ := ih (h.step hfor) (by rw [length_append, length_singleton]; omega)
      rw [length_append, length_singleton] at hdra
      exact ⟨kids', done', hdone, hdra⟩

lemma checkAcyclic_cases (hfor : graph.Formed) :
    (graph.checkAcyclic = .ok () ∧ ¬ ∃ id, TransGen graph.Edge id id) ∨
      graph.checkAcyclic = .error .cycle ∧ ∃ id, TransGen graph.Edge id id := by
  have hst : graph.Draining (fun id => (graph.ids.flatMap graph.parents).count id) []
      (graph.ids.filter fun id => (graph.ids.flatMap graph.parents).count id = 0) := by
    refine ⟨hfor.nodup.filter _, fun id => by simp, fun id => by simp, fun id hid => ?_⟩
    obtain ⟨-, hzero⟩ := mem_filter.mp hid
    refine no_cycle_of_edges fun b hedge => absurd hedge fun hb => ?_
    rw [decide_eq_true_eq, count_eq_zero] at hzero
    exact hzero (mem_flatMap.mpr ⟨b, (hfor.edge hb).1, hb⟩)
  obtain ⟨kids, done, hdone, hdra⟩ := hst.run hfor graph.ids.length (by simp)
  have hsub : done ⊆ graph.ids := by simpa using hdone.subset
  have hnd : done.Nodup := by simpa using hdone.nodup
  simp only [length_nil] at hdra
  unfold checkAcyclic
  simp only [hdra]
  by_cases hlen : done.length = graph.ids.length
  · refine .inl ⟨by simp [hlen], ?_⟩
    rintro ⟨id, hcyc⟩
    have hall : graph.ids ⊆ done := ((hnd.subperm hsub).perm_of_length_le hlen.ge).symm.subset
    obtain ⟨next, hfirst, -⟩ := TransGen.head'_iff.mp hcyc
    exact hdone.acyclic id (by simpa using hall (hfor.edge hfirst).1) hcyc
  · refine .inr ⟨if_pos hlen, by_contra fun hacy => hlen ?_⟩
    have hall : graph.ids ⊆ done := subset_of_peeled (s := {id | id ∈ graph.ids}) (t := {id | id ∈ done})
      (finite_toSet _) (fun id hcyc => hacy ⟨id, hcyc⟩) fun id hid hedg => by
        have hzero : kids id = 0 := by
          rw [hdone.counts, count_eq_zero, mem_flatMap]
          rintro ⟨a, ha, hedge⟩
          obtain ⟨ha, hnot⟩ := mem_filter.mp ha
          exact of_decide_eq_true hnot (hedg a ha hedge)
        simpa using (hdone.clear id).mpr ⟨hid, hzero⟩
    exact le_antisymm (hnd.subperm hsub).length_le (hfor.nodup.subperm hall).length_le

end Acyclic

section Reachable

lemma foldl_mark (pars marks pend : List ObjectId) :
    ∃ fresh, pars.foldl mark (marks, pend) = (fresh ++ marks, fresh ++ pend) ∧
      fresh.Nodup ∧ ∀ id, id ∈ fresh ↔ id ∈ pars ∧ id ∉ marks := by
  induction pars generalizing marks pend with
  | nil => exact ⟨[], rfl, nodup_nil, by simp⟩
  | cons par pars ih =>
    rw [foldl_cons, mark]
    by_cases hmem : par ∈ marks
    · obtain ⟨fresh, hfold, hnd, hfr⟩ := ih marks pend
      refine ⟨fresh, by rw [if_pos hmem, hfold], hnd, fun id => ?_⟩
      rw [hfr id, mem_cons]
      exact ⟨fun h => ⟨.inr h.1, h.2⟩, fun h => ⟨h.1.resolve_left fun heq => h.2 (heq ▸ hmem), h.2⟩⟩
    · obtain ⟨fresh, hfold, hnd, hfr⟩ := ih (par :: marks) (par :: pend)
      refine ⟨fresh ++ [par], by simp [hmem, hfold], ?_, fun id => ?_⟩
      · exact nodup_append.mpr ⟨hnd, nodup_singleton _, fun a ha b hb heq =>
          ((hfr a).mp ha).2 (by simp_all)⟩
      rw [mem_append, hfr id]
      by_cases heq : id = par
      · simp [heq, hmem]
      · simp [heq]

structure Marking (graph : Graph) (root : ObjectId) (marks pending : List ObjectId) : Prop where
  nodup : marks.Nodup
  start : root ∈ marks
  queued : pending ⊆ marks
  inside : marks ⊆ graph.ids
  found : ∀ id ∈ marks, ReflTransGen graph.Edge root id
  followed : Followed graph.Edge {id | id ∈ marks} {id | id ∈ pending}

lemma Marking.step (h : graph.Marking root marks (id :: pend)) (hfor : graph.Formed) {fresh : List ObjectId}
    (hnd : fresh.Nodup) (hfr : ∀ a, a ∈ fresh ↔ a ∈ graph.parents id ∧ a ∉ marks) :
    graph.Marking root (fresh ++ marks) (fresh ++ pend) where
  nodup := nodup_append.mpr ⟨hnd, h.nodup, fun a ha b hb heq => ((hfr a).mp ha).2 (heq ▸ hb)⟩
  start := mem_append_right _ h.start
  queued := append_subset.mpr ⟨subset_append_left _ _, fun a ha => mem_append_right _ (h.queued (.tail _ ha))⟩
  inside := append_subset.mpr ⟨fun a ha => (hfor.edge ((hfr a).mp ha).1).2, h.inside⟩
  found a ha := by
    rcases mem_append.mp ha with ha | ha
    · exact (h.found id (h.queued (.head _))).tail ((hfr a).mp ha).1
    · exact h.found a ha
  followed := by
    refine h.followed.next (a := id) (fun a ha => mem_append_right _ ha) (fun b hedge => ?_)
      (fun b hb => ?_) fun b hb => ?_
    · by_cases hb : b ∈ marks
      · exact mem_append_right _ hb
      · exact mem_append_left _ ((hfr b).mpr ⟨hedge, hb⟩)
    · exact (mem_cons.mp hb).imp_right (mem_append_right _)
    · exact (mem_append.mp hb).symm.imp_right (mem_append_left _)

lemma Marking.run (hfor : graph.Formed) (fuel : Nat) (h : graph.Marking root marks pend)
    (hfuel : fuel + marks.length = graph.ids.length + pend.length) :
    graph.Marking root (graph.markFrom fuel (marks, pend)) [] := by
  induction fuel generalizing marks pend with
  | zero =>
    have hlen := (h.nodup.subperm h.inside).length_le
    obtain rfl : pend = [] := length_eq_zero_iff.mp (by omega)
    exact h
  | succ fuel ih =>
    cases pend with
    | nil => exact h
    | cons id pend =>
      obtain ⟨fresh, hfold, hnd, hfr⟩ := foldl_mark (graph.parents id) marks pend
      rw [markFrom, hfold]
      refine ih (h.step hfor hnd hfr) ?_
      simp only [length_append, length_cons] at hfuel ⊢
      omega

lemma mem_reachable (hfor : graph.Formed) (hroot : root ∈ graph.ids) :
    id ∈ graph.reachable root ↔ ReflTransGen graph.Edge root id := by
  have hst : graph.Marking root [root] [root] :=
    ⟨nodup_singleton _, by simp, by simp, by simpa using hroot, by simp [ReflTransGen.refl], fun a ha => .inl ha⟩
  have hend := hst.run hfor graph.ids.length (by simp)
  refine ⟨fun h => hend.found id h, fun h => ?_⟩
  have hcl : Closed graph.Edge {id | id ∈ graph.reachable root} := fun a ha =>
    (hend.followed a ha).resolve_left (by simp)
  exact (hcl.path (fun _ _ _ hedge => hedge) hend.start h).1

end Reachable

end Graph

end Girt.History
