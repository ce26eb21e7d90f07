import Girt.Proofs.FilesPrepare
import Girt.Refs.Files.View

/-!
# Publication stops between its steps

A publication that stops has made a first part of its changes and reports exactly those.
-/

namespace Girt.Proofs
open ByteLib Girt.Refs Girt.Refs.Files List
open Or (inl inr)
open Prepared (operationSteps packedSteps steps)

section Reports

variable {operations : List Operation} {operation : Operation} {done : List Site} {idx lidx : Nat}
variable {α β : Type}

lemma modify_zipIdx {l : List α} {g g' : α × Nat → β} {change : β → β} {i : Nat}
    (hi : ∀ a, l[i]? = some a → change (g (a, i)) = g' (a, i))
    (hoth : ∀ a, ∀ k ≠ i, g (a, k) = g' (a, k)) :
    (l.zipIdx.map g).modify i change = l.zipIdx.map g' := by
  apply ext_getElem?
  intro k
  rw [getElem?_modify, getElem?_map, getElem?_map, getElem?_zipIdx]
  cases hk : l[k]? with
  | none => simp
  | some a =>
    by_cases heq : i = k
    · subst heq
      simp [hi a hk]
    · simp [heq, hoth a k (Ne.symm heq)]

lemma setReference_describe : (describe operations done none).setReference idx .published =
    describe operations (done ++ [.reference idx]) none :=
  modify_zipIdx (fun _ _ => by simp [Operation.describe])
    (fun _ k hk => by simp [Operation.describe, hk])

lemma setLog_describe (hop : operations[idx]? = some operation) :
    (describe operations done none).setLog idx lidx operation.logOutcome =
      describe operations (done ++ [.log idx lidx]) none := by
  refine modify_zipIdx (fun op hop' => ?_) (fun _ k hk => by simp [Operation.describe, hk])
  obtain rfl := Option.some.inj (hop.symm.trans hop')
  have hlogs : (operation.describe idx done none).logs.modify lidx
      (fun log => (log.1, operation.logOutcome)) =
      (operation.describe idx (done ++ [.log idx lidx]) none).logs :=
    modify_zipIdx (fun _ _ => by simp) (fun _ k hk => by simp [hk])
  rw [hlogs]
  simp [Operation.describe]

lemma setLog_failed (hfr : .log idx lidx ∉ done) (written : Nat) :
    (describe operations done none).setLog idx lidx (.failed written) =
      describe operations done (some (.log idx lidx, written)) := by
  refine modify_zipIdx (fun operation _ => ?_) (fun _ k hk => by simp [Operation.describe, Ne.symm hk])
  have hlogs : (operation.describe idx done none).logs.modify lidx (fun log => (log.1, .failed written)) =
      (operation.describe idx done (some (.log idx lidx, written))).logs :=
    modify_zipIdx (fun _ _ => by simp [hfr]) (fun _ k hk => by simp [Ne.symm hk])
  rw [hlogs]
  simp [Operation.describe]

lemma map_zipIdx (l : List α) (f : α → β) : l.zipIdx.map (fun a => f a.1) = l.map f := by
  conv_rhs => rw [← zipIdx_map_fst 0 l, map_map]
  rfl

lemma describe_nil (operations : List Operation) :
    describe operations [] none = operations.map Operation.unchanged := by
  rw [← map_zipIdx]
  refine map_congr_left fun operation _ => ?_
  simp [Operation.describe, Operation.unchanged, ← map_zipIdx operation.1.logs]

lemma describe_packed (operations : List Operation) :
    describe operations [.packed] none = operations.map Operation.afterPacked := by
  rw [← map_zipIdx]
  refine map_congr_left fun operation _ => ?_
  by_cases hrem : operation.1.packedRemoved <;>
    simp [Operation.describe, Operation.afterPacked, Operation.unchanged,
      ← map_zipIdx operation.1.logs, hrem]

end Reports

section Runs

variable {refs : References} {faults : Faults} {operations : List Operation} {operation : Operation}
  {store : Files.Store}
  {idx : Nat} {done : List Step}
variable {n : Nat}

lemma runSteps_append (a b : List Step) (store : Files.Store) :
    runSteps (a ++ b) store = runSteps b (runSteps a store) := by
  simp [runSteps]

lemma sites_append (a b : List Step) : sites (a ++ b) = sites a ++ sites b := by
  simp [sites]

/-- A publication makes a first part of `steps` on top of what is done. -/
def StopsWithin (operations : List Operation) (store : Files.Store) (done steps : List Step)
    (result : Files.Store × Except TransactionError Outcomes) : Prop :=
  ∃ extra rest, steps = extra ++ rest ∧ Stops operations store (done ++ extra) rest result

lemma StopsWithin.cons {step : Step} {steps : List Step}
    {result : Files.Store × Except TransactionError Outcomes}
    (h : StopsWithin operations store (done ++ [step]) steps result) :
    StopsWithin operations store done (step :: steps) result := by
  obtain ⟨extra, rest, rfl, hstep⟩ := h
  refine ⟨step :: extra, rest, rfl, ?_⟩
  rwa [append_assoc] at hstep

/-- The logs of an operation. The induction is on the logs still to be changed. -/
lemma publishLogs_stops (hop : operations[idx]? = some operation) {logs : List (RefName × Bytes)}
    (hfr : ∀ k, n ≤ k → .log idx k ∉ sites done) :
    StopsWithin operations store done (operation.logSteps idx (logs.zipIdx n))
      (publishLogs refs faults idx operation (logs.zipIdx n) (runSteps done store)
        (describe operations (sites done) none)) := by
  induction logs generalizing n done with
  | nil =>
    refine ⟨[], [], rfl, ?_⟩
    rw [append_nil]
    exact .finished rfl
  | cons log logs ih =>
    rw [zipIdx_cons, publishLogs]
    cases hfau : faults (.log idx n) with
    | none =>
      apply StopsWithin.cons
      have hrun : (operation.logChange log).run (runSteps done store) =
          runSteps (done ++ [(.log idx n, operation.logChange log)]) store := by
        rw [runSteps_append]
        rfl
      have hrep : (describe operations (sites done) none).setLog idx n operation.logOutcome =
          describe operations (sites (done ++ [(.log idx n, operation.logChange log)])) none := by
        rw [sites_append]
        exact setLog_describe hop
      simp only [hrun, hrep]
      apply ih
      intro k hk
      rw [sites_append, mem_append, not_or]
      refine ⟨hfr k (by omega), ?_⟩
      simp only [sites, map_cons, map_nil, mem_singleton, Site.log.injEq, not_and]
      omega
    | some fault =>
      refine ⟨[], _, rfl, ?_⟩
      rw [append_nil]
      simp only [setLog_failed (hfr n (Nat.le_refl n))]
      refine .torn idx n _ (operation.logChange log) _ _ _ rfl ?_
      cases fault with
      | refused src => exact inl ⟨rfl, rfl⟩
      | interrupted written =>
        unfold Operation.tornLog Operation.logChange
        by_cases hdel : operation.deleteLog
        · simp only [hdel, if_true]
          exact inl ⟨rfl, rfl⟩
        · simp only [hdel]
          exact inr ⟨log.1, log.2, rfl, Nat.min_le_right _ _, rfl⟩

/-- Everything done so far belongs to operations before `n`. -/
def DoneBefore (done : List Step) (n : Nat) : Prop :=
  ∀ site ∈ sites done, match site with
    | .locks | .packed => True
    | .reference k | .log k _ => k < n

lemma DoneBefore.append (h : DoneBefore done n) (operation : Operation) (logs : List ((RefName × Bytes) × Nat)) :
    DoneBefore (done ++ [(.reference n, operation.change)] ++ operation.logSteps n logs) (n + 1) := by
  intro site hsite
  simp only [sites_append, mem_append, or_assoc] at hsite
  rcases hsite with hsite | hsite | hsite
  · have hbf := h site hsite
    cases site <;> simp only at hbf ⊢ <;> omega
  · rw [mem_singleton.mp hsite]
    exact Nat.lt_succ_self n
  · simp only [sites, Operation.logSteps, map_map, mem_map] at hsite
    obtain ⟨log, -, rfl⟩ := hsite
    exact Nat.lt_succ_self n

/-- The operations in order. The induction is on the operations still to be published. -/
lemma publishOperations_stops {rest : List Operation} (hcut : operations.drop n = rest)
    (hdone : DoneBefore done n) :
    StopsWithin operations store done (operationSteps (rest.zipIdx n))
      (publishOperations refs faults (rest.zipIdx n) (runSteps done store)
        (describe operations (sites done) none)) := by
  induction rest generalizing n done with
  | nil =>
    refine ⟨[], [], rfl, ?_⟩
    rw [append_nil]
    exact .finished rfl
  | cons operation rest ih =>
    have hget : operations[n]? = some operation := by
      have h := congrArg head? hcut
      rwa [head?_drop] at h
    have hsteps : operationSteps ((operation, n) :: rest.zipIdx (n + 1)) =
        (.reference n, operation.change) :: (operation.logSteps n operation.logs.zipIdx ++
          operationSteps (rest.zipIdx (n + 1))) := by
      simp [operationSteps, Operation.steps]
    rw [zipIdx_cons, publishOperations, hsteps]
    cases hfau : faults (.reference n) with
    | some fault =>
      refine ⟨[], _, rfl, ?_⟩
      rw [append_nil]
      exact .failed _
    | none =>
      apply StopsWithin.cons
      set next := done ++ [(Site.reference n, operation.change)] with hnext
      have hrun : operation.change.run (runSteps done store) = runSteps next store := by
        rw [hnext, runSteps_append]
        rfl
      have hrep : (describe operations (sites done) none).setReference n .published =
          describe operations (sites next) none := by
        rw [hnext, sites_append]
        exact setReference_describe
      have hfr : ∀ k, 0 ≤ k → .log n k ∉ sites next := by
        intro k _ hmem
        rw [hnext, sites_append] at hmem
        rcases mem_append.mp hmem with hmem | hmem
        · exact absurd (hdone _ hmem) (by simp)
        · simp [sites] at hmem
      simp only [hrun, hrep]
      have hlogs := @publishLogs_stops refs faults operations operation store n next 0 hget operation.logs hfr
      generalize publishLogs refs faults n operation operation.logs.zipIdx (runSteps next store)
        (describe operations (sites next) none) = res at hlogs
      obtain ⟨extra, left, hext, hstep⟩ := hlogs
      cases hstep with
      | finished hleft =>
        rw [hleft, append_nil] at hext
        have hdrop : operations.drop (n + 1) = rest := by
          rw [← drop_drop, hcut]
          rfl
        have hbf : DoneBefore (next ++ extra) (n + 1) := by
          rw [← hext]
          exact hdone.append operation _
        obtain ⟨extra', left', hsteps', hstep'⟩ := ih hdrop hbf
        refine ⟨extra ++ extra', left', by rw [hext, hsteps', append_assoc], ?_⟩
        rwa [← append_assoc]
      | failed src =>
        exact ⟨extra, left ++ _, by rw [hext, append_assoc], .failed src⟩
      | torn idx lidx written change later store' src hleft hsto =>
        refine ⟨extra, left ++ _, by rw [hext, append_assoc], ?_⟩
        exact .torn idx lidx written change (later ++ _) store' src (by rw [hleft]; rfl) hsto

lemma publish_stops (refs : References) (faults : Faults) (prepared : Prepared)
    (store : Files.Store) :
    ∃ done rest, prepared.steps = done ++ rest ∧
      Stops prepared.operations store done rest (Files.publish refs faults prepared store) := by
  unfold Files.publish
  simp only [← describe_nil, ← describe_packed]
  cases faults .locks with
  | some fault => exact ⟨[], _, rfl, .failed _⟩
  | none =>
    unfold steps packedSteps
    by_cases hany : prepared.operations.any Operation.packedRemoved
    · simp only [hany, if_true]
      cases faults .packed with
      | some fault => exact ⟨[], _, rfl, .failed _⟩
      | none =>
        have hdone : DoneBefore [(.packed, .replacePacked prepared.replacement)] 0 := by
          intro site hsite
          rw [mem_singleton.mp hsite]
          trivial
        obtain ⟨extra, rest, hsteps, hstep⟩ := @publishOperations_stops refs faults prepared.operations store
          [(.packed, .replacePacked prepared.replacement)] 0 prepared.operations rfl hdone
        exact ⟨_, rest, by rw [hsteps, append_assoc], hstep⟩
    · simp only [hany]
      have hdone : DoneBefore [] 0 := by
        intro site hsite
        cases hsite
      obtain ⟨extra, rest, hsteps, hstep⟩ := @publishOperations_stops refs faults prepared.operations store
        [] 0 prepared.operations rfl hdone
      exact ⟨extra, rest, hsteps, hstep⟩

end Runs

section Visible

variable {refs : References} {store now : Files.Store} {snap : Snapshot} {prepared : Prepared}
variable {name : RefName} {operations : List Operation} {n : Nat} {steps done rest : List Step}
  {operation : Operation}

lemma read_congr {a b : Files.Store} (hpack : a.packed = b.packed) (hloo : a.loose = b.loose)
    (name : RefName) : read refs a name = read refs b name := by
  unfold Files.read readLoose loadPacked
  rw [hpack, hloo]

lemma read_of_absent (hload : loadPacked refs now = .ok snap) (hloo : now.loose name = none) :
    read refs now name = .ok (if name.perWorktree then none else Packed.target snap.records name) := by
  rw [read_of_loaded hload, readLocked, readLoose, hloo]
  rfl

lemma read_of_loose {tgt : Target} (hvd : validateTarget refs.format tgt = .ok ())
    (hloo : now.loose name = some (targetBytes tgt)) : read refs now name = .ok (some tgt) := by
  unfold Files.read readLoose
  rw [hloo]
  simp only [parseLoose_targetBytes hvd]
  rfl

/-- The packed file has its final contents and every loose file its first or last ones. -/
structure Progress (prepared : Prepared) (store now : Files.Store) : Prop where
  packed : now.packed = if prepared.operations.any Operation.packedRemoved then some prepared.replacement else store.packed
  loose : ∀ name, now.loose name = store.loose name ∨ ∃ operation ∈ prepared.operations,
    operation.name = name ∧ now.loose name = operation.target.map targetBytes

lemma change_run (operation : Operation) (now : Files.Store) : operation.change.run now =
    { now with loose := Function.update now.loose operation.name (operation.target.map targetBytes) } := by
  unfold Operation.change
  cases operation.target <;> rfl

lemma logChange_run (operation : Operation) (log : RefName × Bytes) (now : Files.Store) :
    ((operation.logChange log).run now).packed = now.packed ∧
      ((operation.logChange log).run now).loose = now.loose := by
  unfold Operation.logChange
  split_ifs
  · exact ⟨rfl, rfl⟩
  · exact ⟨rfl, rfl⟩

lemma mem_operationSteps {step : Step}
    (h : step ∈ operationSteps (operations.zipIdx n)) :
    (∃ operation ∈ operations, step.2 = operation.change) ∨
      ∃ operation ∈ operations, ∃ log, step.2 = Operation.logChange operation log := by
  obtain ⟨⟨operation, idx⟩, hmem, hstep⟩ := mem_flatMap.mp h
  have hop : operation ∈ operations := (mem_zipIdx hmem).2.2 ▸ getElem_mem _
  rcases mem_cons.mp hstep with rfl | hstep
  · exact inl ⟨operation, hop, rfl⟩
  · obtain ⟨log, -, rfl⟩ := mem_map.mp hstep
    exact inr ⟨operation, hop, log.1, rfl⟩

lemma runSteps_induct {P : Files.Store → Prop}
    (href : ∀ operation ∈ operations, ∀ now, P now → P (operation.change.run now))
    (hlog : ∀ operation : Operation, ∀ log now, P now → P ((operation.logChange log).run now))
    (hsub : ∀ step ∈ steps, step ∈ operationSteps (operations.zipIdx n)) {now : Files.Store}
    (h : P now) : P (runSteps steps now) := by
  induction steps generalizing now with
  | nil => exact h
  | cons step steps ih =>
    apply ih (fun s hs => hsub s (.tail _ hs))
    change P (step.2.run now)
    rcases mem_operationSteps (hsub step (.head _)) with ⟨operation, hmem, hcha⟩ | ⟨operation, -, log, hcha⟩
    · rw [hcha]
      exact href operation hmem now h
    · rw [hcha]
      exact hlog operation log now h

lemma Progress.reference (h : Progress prepared store now)
    (hmem : operation ∈ prepared.operations) :
    Progress prepared store (operation.change.run now) := by
  rw [change_run]
  refine ⟨h.packed, fun name => ?_⟩
  by_cases hname : name = operation.name
  · right
    refine ⟨operation, hmem, hname.symm, ?_⟩
    simp [hname]
  · simp only [Function.update_of_ne hname]
    exact h.loose name

lemma Progress.log (h : Progress prepared store now) (operation : Operation)
    (log : RefName × Bytes) : Progress prepared store ((operation.logChange log).run now) := by
  obtain ⟨hpack, hloo⟩ := logChange_run operation log now
  refine ⟨hpack.trans h.packed, fun name => ?_⟩
  rw [hloo]
  exact h.loose name

lemma loadPacked_eq_ok :
    loadPacked refs now = .ok snap ↔ snap.bytes = now.packed.getD [] ∧
      parsePacked refs.format (now.packed.getD []) refs.packedPath = .ok snap.records := by
  simp only [loadPacked, bind_ok]
  constructor
  · rintro ⟨recs, hrecs, h⟩
    cases h
    exact ⟨rfl, hrecs⟩
  rintro ⟨hbs, hrecs⟩
  refine ⟨_, hrecs, ?_⟩
  rw [← hbs]
  rfl

/-- Operations that can be published over a store: they are about different names, remove the
packed record of exactly the names they delete, and store valid targets. -/
structure Publishable (refs : References) (store : Files.Store) (snap : Snapshot) (prepared : Prepared) : Prop where
  loaded : Files.loadPacked refs store = .ok snap
  distinct : prepared.operations.Pairwise (fun a b => a.name ≠ b.name)
  removed : ∀ operation ∈ prepared.operations,
    operation.packedRemoved = (operation.target.isNone && snap.records.contains operation.name.bytes)
  valid : ∀ operation ∈ prepared.operations, ∀ target, operation.target = some target →
    validateTarget refs.format target = .ok ()
  replacement : prepared.operations.any Operation.packedRemoved = true →
    prepared.replacement = replacementFor refs.format snap.bytes prepared.operations

lemma Progress.start (prepared : Prepared) (store : Files.Store) :
    Progress prepared store (runSteps prepared.packedSteps store) := by
  unfold packedSteps
  by_cases hany : prepared.operations.any Operation.packedRemoved
  · rw [if_pos hany]
    exact ⟨by rw [if_pos hany]; rfl, fun name => inl rfl⟩
  · rw [if_neg hany]
    exact ⟨by rw [if_neg hany]; rfl, fun name => inl rfl⟩

lemma Progress.run (hsub : ∀ step ∈ steps, step ∈ operationSteps prepared.operations.zipIdx)
    (h : Progress prepared store now) : Progress prepared store (runSteps steps now) :=
  runSteps_induct (fun _ hmem _ hnow => hnow.reference hmem)
    (fun operation log _ hnow => hnow.log operation log) hsub h

lemma prefix_progress (h : prepared.steps = done ++ rest) :
    done = [] ∨ Progress prepared store (runSteps done store) := by
  rcases append_eq_append_iff.mp h with ⟨extra, hdone, hrest⟩ | ⟨extra, hpack, hrest⟩
  · right
    rw [hdone, runSteps_append]
    apply Progress.run _ (Progress.start prepared store)
    intro step hstep
    rw [hrest]
    exact mem_append_left _ hstep
  · cases done with
    | nil => exact inl rfl
    | cons step steps =>
      right
      -- the packed part has a single step
      have hall : step :: steps = prepared.packedSteps := by
        have hlen := congrArg length hpack
        have hle : prepared.packedSteps.length ≤ 1 := by
          unfold packedSteps
          split_ifs <;> simp
        rw [length_append, length_cons] at hlen
        have hext : extra = [] := eq_nil_of_length_eq_zero (by omega)
        rw [hpack, hext, append_nil]
      rw [hall]
      exact Progress.start prepared store

variable (hrdy : Publishable refs store snap prepared)
include hrdy

lemma Progress.loadPacked (h : Progress prepared store now) :
    ∃ packed, Files.loadPacked refs now = .ok ⟨now.packed.getD [], packed⟩ ∧ ∀ key, packed.get key =
      if ∃ operation ∈ prepared.operations, operation.packedRemoved ∧ operation.name.bytes = key then none
      else snap.records.get key := by
  obtain ⟨hbs, hrecs⟩ := loadPacked_eq_ok.mp hrdy.loaded
  by_cases hany : prepared.operations.any Operation.packedRemoved
  · rw [← hbs] at hrecs
    obtain ⟨packed, hpack, hget⟩ := parsePacked_replacementFor hrecs prepared.operations
    refine ⟨packed, loadPacked_eq_ok.mpr ⟨rfl, ?_⟩, hget⟩
    rw [h.packed, if_pos hany, Option.getD_some, hrdy.replacement hany]
    exact hpack
  · refine ⟨snap.records, loadPacked_eq_ok.mpr ⟨rfl, ?_⟩, fun key => ?_⟩
    · rw [h.packed, if_neg hany]
      exact hrecs
    · rw [if_neg]
      rintro ⟨operation, hmem, hrem, -⟩
      exact hany (any_eq_true.mpr ⟨operation, hmem, hrem⟩)

lemma Publishable.eq_of_name {a b : Operation} (ha : a ∈ prepared.operations)
    (hb : b ∈ prepared.operations) (hname : a.name = b.name) : a = b := by
  have hnd : (prepared.operations.map Operation.name).Nodup := by
    rw [nodup_iff_pairwise_ne, pairwise_map]
    exact hrdy.distinct
  exact inj_on_of_nodup_map hnd ha hb hname

lemma Progress.stored (h : Progress prepared store now) (hmem : operation ∈ prepared.operations)
    (hloo : now.loose operation.name = operation.target.map targetBytes) :
    read refs now operation.name = .ok operation.target := by
  have hrem := hrdy.removed operation hmem
  cases hval : operation.target with
  | some tgt =>
    rw [hval] at hloo
    exact read_of_loose (hrdy.valid operation hmem tgt hval) hloo
  | none =>
    rw [hval] at hloo hrem
    obtain ⟨packed, hload, hget⟩ := h.loadPacked hrdy
    have hgone : packed.get operation.name.bytes = none := by
      rw [hget]
      by_cases hrec : operation.packedRemoved
      · rw [if_pos ⟨operation, hmem, hrec, rfl⟩]
      rw [hrem] at hrec
      have hnone : snap.records.get operation.name.bytes = none := by
        simpa [OrdMap.contains] using hrec
      rw [hnone, ite_self]
    rw [read_of_absent hload hloo, Packed.target, hgone]
    simp

lemma Progress.kept (h : Progress prepared store now) (hloo : now.loose name = store.loose name) :
    read refs now name = read refs store name ∨
      ∃ operation ∈ prepared.operations, operation.name = name ∧ operation.target = none ∧
      read refs now name = .ok none := by
  cases hfile : store.loose name with
  | some bytes =>
    left
    simp only [Files.read, readLoose, hloo, hfile]
    cases parseLoose refs.format bytes (refs.path name) <;> rfl
  | none =>
    obtain ⟨packed, hload, hget⟩ := h.loadPacked hrdy
    rw [read_of_absent hload (hloo.trans hfile), read_of_absent hrdy.loaded hfile]
    by_cases hrem : ∃ operation ∈ prepared.operations, operation.packedRemoved ∧
        operation.name.bytes = name.bytes
    · right
      obtain ⟨operation, hmem, hrec, hname⟩ := hrem
      have hnone : operation.target = none := by
        have hspec := hrdy.removed operation hmem
        rw [hrec, eq_comm, Bool.and_eq_true, Option.isNone_iff_eq_none] at hspec
        exact hspec.1
      refine ⟨operation, hmem, RefName.ext hname, hnone, ?_⟩
      have hgone : packed.get name.bytes = none := by
        rw [hget, if_pos ⟨operation, hmem, hrec, hname⟩]
      rw [Packed.target, hgone]
      simp
    · left
      have hsame : packed.get name.bytes = snap.records.get name.bytes := by
        rw [hget, if_neg hrem]
      rw [Packed.target, Packed.target, hsame]

lemma Progress.between (h : Progress prepared store now) :
    Between refs prepared.operations store now := by
  constructor
  · intro operation hmem
    rcases h.loose operation.name with hloo | ⟨other, hoth, hname, hloo⟩
    · rcases h.kept hrdy hloo with hread | ⟨other, hoth, hname, hnone, hread⟩
      · exact inl hread
      · right
        rw [hread, ← hrdy.eq_of_name hoth hmem hname, hnone]
    · right
      have heq := hrdy.eq_of_name hoth hmem hname
      subst heq
      exact h.stored hrdy hmem hloo
  · intro name hname
    rcases h.loose name with hloo | ⟨other, hoth, hoth', -⟩
    · rcases h.kept hrdy hloo with hread | ⟨other, hoth, hoth', -⟩
      · exact hread
      · exact absurd hoth' (hname other hoth)
    · exact absurd hoth' (hname other hoth)

lemma prefix_between (h : prepared.steps = done ++ rest) :
    Between refs prepared.operations store (runSteps done store) := by
  rcases @prefix_progress store prepared done rest h with rfl | hpro
  · exact ⟨fun _ _ => inl rfl, fun _ _ => rfl⟩
  · exact hpro.between hrdy

lemma steps_after : After refs prepared.operations (runSteps prepared.steps store) := by
  intro operation hmem
  obtain ⟨idx, hidx⟩ := mem_iff_getElem?.mp hmem
  have hstep : (Site.reference idx, operation.change) ∈ operationSteps prepared.operations.zipIdx := by
    apply mem_flatMap.mpr
    exact ⟨(operation, idx), mem_zipIdx_iff_getElem?.mpr hidx, .head _⟩
  obtain ⟨first, later, hcut⟩ := append_of_mem hstep
  have hpro : Progress prepared store (runSteps prepared.steps store) := by
    rw [steps, runSteps_append]
    exact (Progress.start prepared store).run (fun _ h => h)
  apply hpro.stored hrdy hmem
  rw [steps, hcut, runSteps_append, runSteps_append]
  -- after its own change no other one touches the file
  refine @runSteps_induct prepared.operations 0 later
    (·.loose operation.name = operation.target.map targetBytes) ?_ ?_
    (fun step h => by rw [hcut]; simp [h]) _ ?_
  · intro other hoth now hnow
    rw [change_run]
    by_cases hname : operation.name = other.name
    · rw [hrdy.eq_of_name hmem hoth hname]
      simp
    · simp only [Function.update_of_ne hname]
      exact hnow
  · intro other log now hnow
    rw [(logChange_run other log now).2]
    exact hnow
  · change (operation.change.run _).loose _ = _
    rw [change_run]
    simp

end Visible

section Transactions

variable {refs : References} {ident : LogIdentity} {store : Files.Store} {edits : List RefEdit}
  {prepared : Prepared}
variable {snap : Snapshot} {dereference : Dereference}
variable {edit : RefEdit} {faults : Faults} {final name : RefName} {exp : Expected}

lemma validateEdits_valid (h : Files.validateEdits refs ident edits = .ok ())
    (hedit : edit ∈ edits) :
    (ident = .stored → edit.dereference = .stored) ∧ ∀ tgt, edit.target = some tgt →
      validateTarget refs.format tgt = .ok () := by
  obtain ⟨idx, hidx⟩ := mem_iff_getElem?.mp hedit
  have htest := forM_eq_ok.mp h (edit, idx) (mem_zipIdx_iff_getElem?.mpr hidx)
  simp only [bind_ok, wrapError_eq_ok, checkIdentity, reject_ok] at htest
  obtain ⟨-, hide, htest⟩ := htest
  constructor
  · intro hsto
    cases hder : edit.dereference with
    | stored => rfl
    | follow => exact absurd ⟨hsto, inl hder⟩ hide
  · intro tgt htarg
    simp only [validateEdit, bind_ok] at htest
    obtain ⟨_, _, _, _, _, hnew, _⟩ := htest
    simp only [RefEdit.validateNew, htarg, bind_ok] at hnew
    exact hnew.choose_spec.1

lemma OperationOf.designates {packed : Packed} {plan : Plan} {operation : Operation}
    (h : OperationOf refs ident store packed edit plan operation)
    (hide : ident = .stored → edit.dereference = .stored) :
    Designates refs store edit.name edit.dereference operation.name := by
  have hst := h.planned.chain.start
  have hname := h.name
  cases hder : edit.dereference with
  | stored =>
    rw [Plan.actual, if_neg (by rw [hder]; decide)] at hname
    cases hch : plan.chain with
    | nil =>
      rw [hch] at hst
      cases hst
    | cons first rest =>
      rw [hch] at hst hname
      exact hname.trans (Option.some.inj hst)
  | follow =>
    have hres : ident = .resolved := by
      cases ident with
      | resolved => rfl
      | stored =>
        have hsto := hide rfl
        rw [hder] at hsto
        cases hsto
    have hlin := h.planned.chain.links (decide_eq_true ⟨hres, inl hder⟩)
    refine ⟨plan.chain.names, hlin, ?_⟩
    rw [Plan.actual, if_pos hder] at hname
    have hne : plan.chain ≠ [] := by
      intro hnil
      rw [hnil] at hst
      cases hst
    rw [getLast?_eq_some_getLast hne] at hname
    rw [Observed.names, getLast?_map, getLast?_eq_some_getLast hne, hname]
    rfl

lemma Ready.publishable (h : Ready refs ident store edits snap prepared)
    (hvd : Files.validateEdits refs ident edits = .ok ()) :
    Publishable refs store snap prepared := by
  have hmem : ∀ operation ∈ prepared.operations, ∃ edit ∈ edits, ∃ plan,
      OperationOf refs ident store snap.records edit plan operation :=
    fun operation hop => forall₂_mem_left h.operations.flip hop
  refine ⟨h.loaded, h.distinct, ?_, ?_, h.replacement⟩
  · intro operation hop
    obtain ⟨edit, -, plan, hspec⟩ := hmem operation hop
    rw [hspec.packedRemoved, hspec.target]
  intro operation hop tgt htarg
  obtain ⟨edit, hedit, plan, hspec⟩ := hmem operation hop
  rw [hspec.target] at htarg
  exact (validateEdits_valid hvd hedit).2 tgt htarg

lemma Stops.between {done rest : List Step} {res : Files.Store × Except TransactionError Outcomes}
    (hdone : Between refs prepared.operations store (runSteps done store))
    (h : Stops prepared.operations store done rest res) :
    Between refs prepared.operations store res.1 := by
  cases h with
  | finished hrest | failed src => exact hdone
  | torn idx lidx written change later store' src hrest hsto =>
    have hread : read refs store' = read refs (runSteps done store) := by
      rcases hsto with ⟨-, rfl⟩ | ⟨log, bs, -, -, rfl⟩
      · rfl
      · exact funext (read_congr rfl rfl)
    constructor
    · rw [hread]
      exact hdone.edited
    · rw [hread]
      exact hdone.others

lemma transactionAtomic (hvd : Files.validateEdits refs ident edits = .ok ())
    (hprep : Files.prepare refs ident store edits = .ok prepared) :
    TransactionAtomic refs store edits prepared (Files.publish refs faults prepared store) := by
  obtain ⟨snap, hrdy⟩ := prepare_ready hprep
  have hpub := hrdy.publishable hvd
  obtain ⟨done, rest, hsteps, hstep⟩ := publish_stops refs faults prepared store
  refine ⟨?_, fun _ _ h => prefix_between hpub h, steps_after hpub, ⟨done, rest, hsteps, hstep⟩,
    Stops.between (prefix_between hpub hsteps) hstep⟩
  apply forall₂_imp_mem hrdy.operations
  rintro edit operation hedit - ⟨plan, hspec⟩
  exact ⟨hspec.designates (validateEdits_valid hvd hedit).1, hspec.target⟩

lemma lockResolution_chain (hload : Files.loadPacked refs store = .ok snap)
    {seen : List RefName} {cur : RefName} {actual : Option Target}
    (h : lockResolution refs store snap.records seen cur = .ok (final, actual)) :
    ∃ chain, Links.Chain (link refs store) cur chain ∧ chain.getLast? = some final := by
  have hread := read_of_loaded hload
  fun_induction lockResolution refs store snap.records seen cur with
  | case1 | case2 | case3 => cases h
  | case4 seen cur hfr next hnext hdep ih =>
    obtain ⟨chain, hch, hlast⟩ := ih h
    obtain ⟨-, -, hval⟩ := bind_ok.mp hnext
    refine ⟨cur :: chain, .step (link_eq_some_iff.mpr ((hread cur).trans hval)) hch, ?_⟩
    rw [getLast?_cons, hlast]
    rfl
  | case5 seen cur hfr val hstop hval =>
    cases h
    obtain ⟨-, -, hval⟩ := bind_ok.mp hval
    refine ⟨[final], .stop ?_, rfl⟩
    cases hlink : link refs store final with
    | none => rfl
    | some next =>
      have hnext := link_eq_some_iff.mp hlink
      rw [hread final, hval] at hnext
      cases hnext
      exact absurd rfl (hstop next)

lemma deletion_publishable (hload : Files.loadPacked refs store = .ok snap) (name : RefName) :
    Publishable refs store snap (deletion refs name snap) := by
  refine ⟨hload, pairwise_singleton _ _, ?_, ?_, ?_⟩
  · intro operation hmem
    rw [mem_singleton.mp hmem]
    rfl
  · intro operation hmem tgt htarg
    rw [mem_singleton.mp hmem] at htarg
    cases htarg
  intro hany
  have hcon : snap.records.contains name.bytes := by
    simpa [deletion] using hany
  simp [deletion, replacementFor, hcon]

lemma deletionAtomic (hload : Files.loadPacked refs store = .ok snap)
    {given : RefName}
    (hprep : prepareDelete refs store given dereference exp = .ok (name, snap)) :
    DeletionAtomic refs faults store name snap (delete refs faults store given dereference exp) := by
  have hpub := deletion_publishable hload name
  have hstep : ∃ done rest, (deletion refs name snap).steps = done ++ rest ∧
      ((rest = [] ∧ delete refs faults store given dereference exp = (runSteps done store, .ok name)) ∨
        ∃ step later fault, rest = step :: later ∧ faults step.1 = some fault ∧
          delete refs faults store given dereference exp =
            (runSteps done store, .error (deletionError refs name snap step.1 fault))) := by
    unfold delete
    rw [hprep]
    unfold deleteLocked steps packedSteps
    by_cases hcon : snap.records.contains name.bytes
    · simp only [deletion, hcon, if_true, any_cons, any_nil, Bool.or_false]
      cases hpack : faults .packed with
      | some fault => exact ⟨[], _, rfl, inr ⟨_, _, fault, rfl, hpack, rfl⟩⟩
      | none =>
        cases hloo : faults (.reference 0) with
        | some fault => exact ⟨[_], [_], rfl, inr ⟨_, _, fault, rfl, hloo, by simp [deletionError, hcon]; rfl⟩⟩
        | none => exact ⟨[_, _], [], rfl, inl ⟨rfl, rfl⟩⟩
    · simp only [deletion, hcon, any_cons, any_nil, Bool.or_false]
      cases hloo : faults (.reference 0) with
      | some fault => exact ⟨[], [_], rfl, inr ⟨_, _, fault, rfl, hloo, by simp [deletionError, hcon]; rfl⟩⟩
      | none => exact ⟨[_], [], rfl, inl ⟨rfl, rfl⟩⟩
  refine ⟨fun _ _ h => prefix_between hpub h, steps_after hpub, hstep, ?_⟩
  obtain ⟨done, rest, hsteps, ⟨-, hres⟩ | ⟨_, _, _, _, _, hres⟩⟩ := hstep
  all_goals
    rw [hres]
    exact prefix_between hpub hsteps

lemma prepareDelete_eq_ok (h : prepareDelete refs store name dereference exp = .ok (final, snap)) :
    Files.loadPacked refs store = .ok snap ∧ Designates refs store name dereference final := by
  simp only [prepareDelete, bind_ok] at h
  obtain ⟨_, _, packed, hload, h⟩ := h
  cases dereference with
  | stored =>
    simp only [bind_ok] at h
    obtain ⟨_, _, _, _, _, _, h⟩ := h
    cases h
    exact ⟨hload, rfl⟩
  | follow =>
    simp only [bind_ok] at h
    obtain ⟨⟨cur, actual⟩, hres, _, _, h⟩ := h
    cases h
    exact ⟨hload, lockResolution_chain hload hres⟩

/-- Publication over loose and packed references: an accepted transaction or deletion that stops
after any first part of its steps shows every edited reference with its old or its new value and
every other one unchanged, and reports exactly the steps it made. What is not accepted changes
nothing. -/
theorem publication_atomic (refs : References) (faults : Faults) (store : Files.Store) :
    (∀ identity edits,
      (edits = [] ∧ Files.transaction refs identity faults store edits = (store, .ok [])) ∨
      (∃ error, (Files.validateEdits refs identity edits >>= fun _ => Files.prepare refs identity store edits) =
          .error error ∧ Files.transaction refs identity faults store edits = (store, .error error)) ∨
      ∃ prepared, Files.prepare refs identity store edits = .ok prepared ∧
        TransactionAtomic refs store edits prepared (Files.transaction refs identity faults store edits)) ∧
    ∀ name dereference expected,
      (∃ error, prepareDelete refs store name dereference expected = .error error ∧
        delete refs faults store name dereference expected = (store, .error error)) ∨
      ∃ final packed, prepareDelete refs store name dereference expected = .ok (final, packed) ∧
        Designates refs store name dereference final ∧
        DeletionAtomic refs faults store final packed (delete refs faults store name dereference expected) := by
  constructor
  · intro identity edits
    unfold Files.transaction
    by_cases hnil : edits = []
    · exact Or.inl ⟨hnil, if_pos hnil⟩
    right
    rw [if_neg hnil]
    cases hprep : (Files.validateEdits refs identity edits >>= fun _ =>
      Files.prepare refs identity store edits) with
    | error error => exact Or.inl ⟨error, rfl, rfl⟩
    | ok prepared =>
      obtain ⟨⟨⟩, hvd, hpre⟩ := bind_ok.mp hprep
      exact Or.inr ⟨prepared, hpre, transactionAtomic hvd hpre⟩
  · intro name dereference expected
    cases hprep : prepareDelete refs store name dereference expected with
    | error error =>
      left
      refine ⟨error, rfl, ?_⟩
      unfold delete
      rw [hprep]
    | ok value =>
      obtain ⟨final, packed⟩ := value
      obtain ⟨hload, hdes⟩ := prepareDelete_eq_ok hprep
      exact Or.inr ⟨final, packed, rfl, hdes, deletionAtomic hload hprep⟩

end Transactions

end Girt.Proofs
