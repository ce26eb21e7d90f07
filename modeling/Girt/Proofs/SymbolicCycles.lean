import Girt.Proofs.FilesPublish
import Girt.Proofs.ReftableTransaction

/-!
# Symbolic cycles

The files backend refuses a logged edit whose target leads back to it; the reftable backend stores it.
-/

namespace Girt.Proofs

open ByteLib Links Girt.Refs
open Reftable (transaction)

variable {sufs : Path → List UInt32} {outs : List RefEditOutcome}

/-- The edit of a batch that stores a symbolic target with a log entry. -/
structure LogsSymbolic (edit : RefEdit) (target : RefName) : Prop where
  target : edit.target = some (.symbolic target)
  appends : edit.reflog.appendFields.isSome = true

lemma LogsSymbolic.stored {edit : RefEdit} {target : RefName} (hedit : LogsSymbolic edit target)
    {fmt : ObjectFormat} (h : validateEdit fmt edit = .ok ()) : edit.dereference = .stored := by
  simp only [validateEdit, bind_ok, RefEdit.validateNew, hedit.target, reject_ok] at h
  obtain ⟨_, _, _, _, _, ⟨_, _, _, _, hfol⟩, _⟩ := h
  cases hder : edit.dereference with
  | stored => rfl
  | follow => exact absurd ⟨hder, trivial⟩ hfol

lemma forall₂_singleton {α β : Type} {R : α → β → Prop} {a : α} {l : List β}
    (h : List.Forall₂ R [a] l) : ∃ b, l = [b] ∧ R a b := by
  cases h with
  | cons hab hnil =>
    cases hnil
    exact ⟨_, rfl, hab⟩

section Files
open Girt.Refs.Files

variable {refs : Files.References} {ident : LogIdentity} {store now : Files.Store} {edit : RefEdit}
  {target : RefName}
  {prepared : Prepared}

lemma link_between {op : Operation} (htarg : op.target = some (.symbolic target))
    (h : Between refs [op] store now) :
    (∀ name, name ≠ op.name → link refs now name = link refs store name) ∧
      (link refs now op.name = link refs store op.name ∨ link refs now op.name = some target) := by
  constructor
  · intro name hname
    have hread := h.others name (fun other hoth => by
      rw [List.mem_singleton.mp hoth]
      exact hname.symm)
    rw [link, link, hread]
  · rcases h.edited op List.mem_cons_self with hread | hread
    · left
      rw [link, link, hread]
    · right
      rw [htarg] at hread
      exact link_eq_some_iff.mpr hread

lemma files_not_onCycle (hedit : LogsSymbolic edit target) (hacy : Acyclic (link refs store))
    (hvd : Files.validateEdits refs ident [edit] = .ok ())
    (hprep : Files.prepare refs ident store [edit] = .ok prepared) (faults : Faults) :
    ¬ OnCycle (link refs (Files.transaction refs ident faults store [edit]).1) edit.name := by
  have hato := @transactionAtomic refs ident store [edit] prepared faults hvd hprep
  have htra : Files.transaction refs ident faults store [edit] =
      Files.publish refs faults prepared store := by
    have hrdy : (Files.validateEdits refs ident [edit] >>= fun _ => Files.prepare refs ident store [edit]) =
        .ok prepared := bind_ok.mpr ⟨(), hvd, hprep⟩
    unfold Files.transaction
    rw [if_neg (List.cons_ne_nil _ _), hrdy]
  obtain ⟨snap, hrdy⟩ := prepare_ready hprep
  obtain ⟨op, hope, plan, hspec⟩ := forall₂_singleton hrdy.operations
  have hsto : edit.dereference = .stored := by
    obtain ⟨idx, hidx⟩ := List.mem_iff_getElem?.mp (List.mem_singleton.mpr (rfl : edit = edit))
    have htest := forM_eq_ok.mp hvd (edit, idx) (List.mem_zipIdx_iff_getElem?.mpr hidx)
    simp only [bind_ok, wrapError_eq_ok] at htest
    obtain ⟨_, _, htest⟩ := htest
    exact hedit.stored htest
  have hname : op.name = edit.name := by
    have hdes := hspec.designates (fun _ => hsto)
    rw [hsto] at hdes
    exact hdes
  obtain ⟨hch, hfr⟩ := hspec.planned.newChain target hedit.target hedit.appends
  have hapa : ¬ Reaches (link refs store) target edit.name :=
    fun hrea => hfr ((hch.links rfl).mem_iff.mpr hrea)
  have hvis := hato.visible
  rw [hope] at hvis
  rw [htra]
  obtain ⟨hoth, hself⟩ := link_between (hspec.target.trans hedit.target) hvis
  rw [hname] at hoth hself
  rcases hself with hself | hself
  · have hlink : link refs (Files.publish refs faults prepared store).1 = link refs store := by
      funext name
      by_cases heq : name = edit.name
      · rw [heq, hself]
      · exact hoth name heq
    rw [hlink]
    exact hacy edit.name
  · rw [onCycle_iff hoth hself]
    exact hapa

end Files

section Reftable
open Girt.Refs.Reftable

variable {codec : Codec} {refs : Reftable.References} {store store' : Stacks} {pre after : StoreView}
  {edit : RefEdit} {target : RefName}

lemma transaction_validated {edits : List RefEdit}
    (h : transaction codec refs sufs store edits = (store', .ok outs)) (hedit : edit ∈ edits) :
    validateEdit refs.format edit = .ok () := by
  unfold transaction at h
  rw [if_neg (List.ne_nil_of_mem hedit)] at h
  split at h
  · cases h
  rename_i prepared hpre
  obtain ⟨_, hvd, -⟩ := bind_ok.mp hpre
  obtain ⟨idx, hidx⟩ := List.mem_iff_getElem?.mp hedit
  have htest := forM_eq_ok.mp hvd (edit, idx) (List.mem_zipIdx_iff_getElem?.mpr hidx)
  exact wrapError_eq_ok.mp htest

lemma readsAs_target (ha : ReadsAs codec refs store pre) (hb : ReadsAs codec refs store after)
    (name : RefName) : after.target refs name = pre.target refs name := by
  obtain ⟨s, hs, hview⟩ := ha _ (directory_mem refs name)
  obtain ⟨s', hs', hview'⟩ := hb _ (directory_mem refs name)
  rw [hs] at hs'
  cases hs'
  rw [StoreView.target, StoreView.target, ← hview, ← hview']

lemma reftable_link (hz : codec.zlib.Inverts) (hedit : LogsSymbolic edit target)
    (hread : ReadsAs codec refs store pre)
    (h : transaction codec refs sufs store [edit] = (store', .ok outs))
    (haf : ReadsAs codec refs store' after) :
    (∀ name, name ≠ edit.name → after.link refs name = pre.link refs name) ∧
      after.link refs edit.name = some target := by
  have hsto := hedit.stored (transaction_validated h List.mem_cons_self)
  obtain ⟨plans, hmade, hreads, -, -⟩ := transaction_eq_ok hz hread h
  obtain ⟨plan, rfl, hplan⟩ := forall₂_singleton hmade
  have hname : plan.name = edit.name := by
    have hpla := hplan.name
    rw [if_neg (by rw [hsto]; decide)] at hpla
    exact Option.some.inj hpla
  have htarg : ∀ name, after.target refs name = (pre.apply refs pre edit plan).target refs name :=
    readsAs_target hreads haf
  constructor
  · intro name hne
    rw [← hname] at hne
    rw [StoreView.link, StoreView.link, htarg, apply_target_of_ne hne]
  have hself : (pre.apply refs pre edit plan).target refs edit.name = some (.symbolic target) := by
    unfold StoreView.target StoreView.apply
    rw [hname]
    simp [hedit.target]
  rw [StoreView.link, htarg, hself]

end Reftable

section Claim
open Girt.Refs.Reftable

/-- After an accepted logged symbolic edit on an acyclic state no cycle goes through the edited
name: always with loose and packed files, whatever part of the publication is made; with reftables
exactly when the new target did not lead to the edited name before. -/
theorem symbolic_edit_cycle (edit : RefEdit) (target : RefName) (hedit : LogsSymbolic edit target) :
    (∀ (refs : Files.References) (identity : Files.LogIdentity) (faults : Files.Faults) (store : Files.Store)
      (prepared : Files.Prepared), Acyclic (Files.link refs store) →
      Files.validateEdits refs identity [edit] = .ok () → Files.prepare refs identity store [edit] = .ok prepared →
      ¬ OnCycle (Files.link refs (Files.transaction refs identity faults store [edit]).1) edit.name) ∧
    ∀ (codec : Codec) (refs : Reftable.References) (suffixes : Path → List UInt32) (store store' : Stacks)
      (before after : StoreView) (outcomes : List RefEditOutcome), codec.zlib.Inverts →
      ReadsAs codec refs store before → Acyclic (before.link refs) →
      Reftable.transaction codec refs suffixes store [edit] = (store', .ok outcomes) → ReadsAs codec refs store' after →
      (¬ OnCycle (after.link refs) edit.name ↔ ¬ Reaches (before.link refs) target edit.name) := by
  constructor
  · intro refs identity faults store prepared hacy hvd hprep
    exact files_not_onCycle hedit hacy hvd hprep faults
  · intro codec refs suffixes store store' before after outcomes hz hread _ htra haf
    obtain ⟨hoth, hself⟩ := reftable_link hz hedit hread htra haf
    rw [onCycle_iff hoth hself]

def loopEdit : RefEdit :=
  ⟨sampleBranch, .stored, some (.symbolic .head), .any,
    .append ⟨ascii "A", ascii "a@b", 1700000001, -210⟩ (ascii "loop")⟩

def loopStream : Bytes × Bytes :=
  ([0, 128, 65] ++ ascii "refs/heads/main" ++ [0, 255, 255, 255, 255, 255, 255, 255, 252] ++ List.replicate 40 7 ++
    [1, 65, 3, 97, 64, 98, 133, 169, 206, 225, 1, 254, 182, 5] ++ ascii "loop" ++ [10, 0, 0, 4, 0, 1],
   [120, 156, 99, 104, 112, 44, 74, 77, 43, 214, 207, 72, 77, 76, 41, 214, 207, 77, 204, 204, 99, 248, 15, 1,
    127, 216, 137, 4, 140, 142, 204, 137, 14, 73, 173, 43, 207, 61, 100, 252, 183, 141, 53, 39, 63, 191, 128,
    139, 129, 129, 133, 129, 17, 0, 210, 254, 23, 47])

def loopCodec : Codec := ⟨recordedZlib [sampleStream, loopStream], crc32⟩

lemma loopCodec_inverts : loopCodec.zlib.Inverts := by
  refine recordedZlib_inverts ⟨?_, ?_⟩
  · decide +kernel
  · decide +kernel

def loopStore : Stacks := fun _ => stackOf loopCodec Limits.default [sampleTable]

lemma loopStore_reads :
    ReadsAs loopCodec sampleRefs loopStore (viewOf loopCodec sampleRefs loopStore) := by
  apply readsAs_viewOf
  decide +kernel

lemma loopStore_link (name : RefName) : (viewOf loopCodec sampleRefs loopStore).link sampleRefs name =
    if name = .head then some sampleBranch else none := by
  have hview : viewOf loopCodec sampleRefs loopStore (ascii "r/reftable") = sampleTable.view := by
    apply viewOf_eq
    decide +kernel
  unfold StoreView.link StoreView.target
  rw [directory_sampleRefs, hview]
  by_cases hhead : name = .head
  · subst hhead
    rfl
  have hhead' : ¬ RefName.head.bytes = name.bytes := fun heq => hhead (RefName.ext heq.symm)
  rw [if_neg hhead]
  by_cases hbra : sampleBranch.bytes = name.bytes
  · have heq : name = sampleBranch := RefName.ext hbra.symm
    subst heq
    rfl
  · simp [Table.view, sampleTable, RecordName.ofRefName, hhead', hbra]

lemma loopStore_acyclic : Acyclic ((viewOf loopCodec sampleRefs loopStore).link sampleRefs) := by
  apply acyclic_of_stop
  intro a b hab
  rw [loopStore_link] at hab ⊢
  split_ifs at hab
  cases hab
  exact if_neg (by decide)

lemma loopEdit_accepted : ∃ store' outs,
    transaction loopCodec sampleRefs (fun _ => [5]) loopStore [loopEdit] = (store', .ok outs) :=
  exists_snd_ok (by decide +kernel)

lemma loopEdit_logs : LogsSymbolic loopEdit .head := ⟨rfl, rfl⟩

theorem reftable_accepts_loop :
    Acyclic ((viewOf loopCodec sampleRefs loopStore).link sampleRefs) ∧
    ∃ store' outcomes after,
      Reftable.transaction loopCodec sampleRefs (fun _ => [5]) loopStore [loopEdit] = (store', .ok outcomes) ∧
      ReadsAs loopCodec sampleRefs store' after ∧ OnCycle (after.link sampleRefs) loopEdit.name := by
  obtain ⟨store', outcomes, h⟩ := loopEdit_accepted
  obtain ⟨plans, -, haf, -, -⟩ := transaction_eq_ok loopCodec_inverts loopStore_reads h
  obtain ⟨hoth, hself⟩ := reftable_link loopCodec_inverts loopEdit_logs loopStore_reads h haf
  refine ⟨loopStore_acyclic, store', outcomes, _, h, haf, ?_⟩
  rw [onCycle_iff hoth hself]
  refine .single ?_
  rw [loopStore_link]
  rfl

def unbornStore : Files.Store :=
  ⟨none, fun name => if name = .head then some (Files.targetBytes (.symbolic sampleBranch)) else none, fun _ => none⟩

def unbornRefs : Files.References := ⟨.sha1, ascii "r", ascii "r"⟩

def aliasEdit : RefEdit :=
  ⟨⟨ascii "refs/heads/alias", by decide +kernel⟩, .stored, some (.symbolic sampleBranch), .absent,
    .append ⟨ascii "A", ascii "a@b", 1700000001, -210⟩ (ascii "alias")⟩

lemma unbornStore_acyclic : Acyclic (Files.link unbornRefs unbornStore) := by
  have hlink : ∀ name, Files.link unbornRefs unbornStore name = if name =
      .head then some sampleBranch else none := by
    intro name
    by_cases hhead : name = .head
    · subst hhead
      decide +kernel
    have hloo : unbornStore.loose name = none := if_neg hhead
    have hload : Files.loadPacked unbornRefs unbornStore = .ok ⟨unbornStore.packed.getD [], .empty⟩ := rfl
    unfold Files.link
    rw [read_of_absent hload hloo, if_neg hhead]
    split_ifs <;> rfl
  apply acyclic_of_stop
  intro a b hab
  rw [hlink] at hab ⊢
  split_ifs at hab
  cases hab
  exact if_neg (by decide)

/-- A new alias of an unborn branch in loose files, and the loop in a reftable. -/
theorem symbolic_edit_cycle_alias :
    (∃ prepared, Files.prepare unbornRefs .resolved unbornStore [aliasEdit] = .ok prepared ∧
      ¬ OnCycle (Files.link unbornRefs
        (Files.transaction unbornRefs .resolved (fun _ => none) unbornStore [aliasEdit]).1) aliasEdit.name) ∧
    ∃ store' outcomes after,
      Reftable.transaction loopCodec sampleRefs (fun _ => [5]) loopStore [loopEdit] = (store', .ok outcomes) ∧
      ReadsAs loopCodec sampleRefs store' after ∧
      (¬ OnCycle (after.link sampleRefs) loopEdit.name ↔
        ¬ Reaches ((viewOf loopCodec sampleRefs loopStore).link sampleRefs) .head loopEdit.name) := by
  constructor
  · obtain ⟨prepared, hprep⟩ := exists_ok (show (Files.prepare unbornRefs .resolved unbornStore [aliasEdit]).isOk by decide +kernel)
    exact ⟨prepared, hprep, (symbolic_edit_cycle aliasEdit sampleBranch ⟨rfl, rfl⟩).1 unbornRefs .resolved
      (fun _ => none) unbornStore prepared unbornStore_acyclic (by decide +kernel) hprep⟩
  · obtain ⟨store', outcomes, h⟩ := loopEdit_accepted
    obtain ⟨plans, -, haf, -, -⟩ := transaction_eq_ok loopCodec_inverts loopStore_reads h
    exact ⟨store', outcomes, _, h, haf, (symbolic_edit_cycle loopEdit .head loopEdit_logs).2
      loopCodec sampleRefs _ _ _ _ _
      outcomes loopCodec_inverts loopStore_reads loopStore_acyclic h haf⟩

end Claim

end Girt.Proofs
