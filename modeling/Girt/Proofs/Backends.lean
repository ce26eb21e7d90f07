import Girt.Lib.Simulation
import Girt.Proofs.FilesPublish
import Girt.Proofs.ReftableTransaction

/-!
# The two backends agree

Files and reftable stacks that hold the same references still do after every run of batches that
both accept, and the batches have done to them what they do to the abstract store.
-/

namespace Girt.Proofs

open ByteLib Girt.Refs List
open Reftable (Codec Plan Planned ReadsAs Stacks StoreView)

abbrev Stores := Files.Store × Stacks

variable (codec : Codec) (files : Files.References) (refs : Reftable.References)

/-- Both stores hold the references of one view: under every name they store the same value. -/
def Hold (stores : Stores) (view : StoreView) : Prop :=
  ReadsAs codec refs stores.2 view ∧ ∀ name, Files.read files stores.1 name = .ok (view.target refs name)

def BothAccept (stores : Stores) (edits : List RefEdit) (stores' : Stores) : Prop :=
  (∃ identity faults outs, Files.transaction files identity faults stores.1 edits = (stores'.1, .ok outs)) ∧
    ∃ suffixes outs, Reftable.transaction codec refs suffixes stores.2 edits = (stores'.2, .ok outs)

def Applies (before : StoreView) (edits : List RefEdit) (after : StoreView) : Prop :=
  ∃ plans, Forall₂ (Planned refs before) edits plans ∧ after = StoreView.applyAll refs before (edits.zip plans)

variable {codec files refs} {before : StoreView} {edits : List RefEdit}

lemma read_target {store : Stacks} (hread : ReadsAs codec refs store before) (name : RefName) :
    refs.read codec store name = .ok (before.target refs name) := by
  obtain ⟨s, hs, hview⟩ := hread _ (directory_mem refs name)
  obtain ⟨files, merge, hfrom⟩ := readFrom hs
  have hfind : s.table.references.find? (fun r => r.name.bytes = name.bytes) =
      (merge.references.get name.bytes).filter (fun _ => true) := by
    rw [hfrom.snapshot]
    apply merge.references_keyed.find_values
    simp [Reftable.RefRecord.key]
  simp only [Reftable.References.read, Reftable.readObservation, hs, bind, Except.bind, pure,
    Except.pure, hfind]
  rw [StoreView.target, ← hview, hfrom.view]
  dsimp only [mergedView]
  rcases merge.references.get name.bytes with _ | ⟨_, _, _ | _, _⟩ <;> rfl

lemma target_apply (view : StoreView) (edit : RefEdit) (plan : Plan) (name : RefName) :
    (view.apply refs before edit plan).target refs name =
      if plan.name = name then edit.target else view.target refs name := by
  unfold StoreView.target StoreView.apply
  dsimp only
  by_cases hname : plan.name = name
  · subst hname
    cases edit.target <;> simp
  · rw [if_neg hname, if_neg (fun h => hname (RefName.ext h.2.symm))]

/-- A name has the target of the last edit that stores it. -/
lemma target_applyAll (plans : List (RefEdit × Plan)) (name : RefName) :
    (∃ p ∈ plans, p.2.name = name ∧ (StoreView.applyAll refs before plans).target refs name = p.1.target) ∨
      ((∀ p ∈ plans, p.2.name ≠ name) ∧
        (StoreView.applyAll refs before plans).target refs name = before.target refs name) := by
  induction plans using reverseRecOn with
  | nil => exact Or.inr ⟨by simp, rfl⟩
  | append_singleton plans p ih =>
    rw [StoreView.applyAll, foldl_append, foldl_cons, foldl_nil, target_apply]
    split_ifs with hname
    · exact Or.inl ⟨p, by simp, hname, rfl⟩
    rcases ih with ⟨q, hq, hlast⟩ | ⟨hne, hsame⟩
    · exact Or.inl ⟨q, mem_append_left _ hq, hlast⟩
    · exact Or.inr ⟨forall_mem_append.mpr ⟨hne, by simpa using hname⟩, hsame⟩

lemma files_accepted {identity : Files.LogIdentity} {faults : Files.Faults} {store store' : Files.Store}
    {outs : Files.Outcomes} (h : Files.transaction files identity faults store edits = (store', .ok outs)) :
    ∃ ops, Forall₂ (fun edit op =>
        Files.Designates files store edit.name edit.dereference op.name ∧ op.target = edit.target)
        edits ops ∧ Files.After files ops store' ∧ Files.Between files ops store store' := by
  unfold Files.transaction at h
  split_ifs at h with hnil
  · cases h
    subst hnil
    exact ⟨[], .nil, by simp [Files.After], by simp, fun _ _ => rfl⟩
  split at h
  · cases h
  rename_i prepared hprep
  obtain ⟨⟨⟩, hvd, hpre⟩ := bind_ok.mp hprep
  have hatomic := @transactionAtomic _ _ _ _ _ faults hvd hpre
  rw [h] at hatomic
  have hafter := hatomic.complete
  obtain ⟨done, rest, hsteps, ⟨rfl⟩⟩ := hatomic.stops
  rw [hsteps, append_nil] at hafter
  exact ⟨_, hatomic.edits, hafter, hatomic.visible⟩

/-- Equal references have equal chains, so both backends store an edit under the same name. -/
lemma designates_eq {store : Files.Store} {edit : RefEdit} {plan : Plan} {final : RefName}
    (hvals : ∀ name, Files.read files store name = .ok (before.target refs name))
    (hdes : Files.Designates files store edit.name edit.dereference final)
    (hplan : Planned refs before edit plan) : plan.name = final := by
  have hlink : Files.link files store = before.link refs := by
    funext name
    rw [Files.link, StoreView.link, hvals]
    rcases before.target refs name with _ | _ | _ <;> rfl
  have hname := hplan.name
  have hchain := hplan.chain
  unfold Files.Designates at hdes
  split at hdes
  · rename_i hder
    simpa [hder, hdes] using hname
  · rename_i hder
    obtain ⟨chain, hlinks, hlast⟩ := hdes
    rw [hder, if_pos rfl] at hname
    rw [if_pos (Or.inl hder)] at hchain
    rw [hlink] at hlinks
    rw [hchain.unique hlinks, hlast] at hname
    exact Option.some.inj hname

lemma hold_step (hz : codec.zlib.Inverts) {stores stores' : Stores}
    (h : Hold codec files refs stores before)
    (hacc : BothAccept codec files refs stores edits stores') :
    ∃ after, Applies refs before edits after ∧ Hold codec files refs stores' after := by
  obtain ⟨hread, hvals⟩ := h
  obtain ⟨⟨identity, faults, outs, hfiles⟩, suffixes, outs', hstacks⟩ := hacc
  obtain ⟨plans, hplans, hreads, -⟩ := transaction_eq_ok hz hread hstacks
  obtain ⟨ops, hops, hafter, hbetween⟩ := files_accepted hfiles
  refine ⟨_, ⟨plans, hplans, rfl⟩, hreads, fun name => ?_⟩
  rcases target_applyAll (edits.zip plans) name with ⟨⟨edit, plan⟩, hp, hname, hlast⟩ | ⟨hne, hsame⟩
  · -- The files have one value for a name, so any edit of it has the target of the last.
    obtain ⟨op, hop, hdes, htarget⟩ := forall₂_mem_left hops (of_mem_zip hp).1
    rw [hlast, ← htarget, ← hname, designates_eq hvals hdes ((forall₂_iff_zip.mp hplans).2 hp)]
    exact hafter op hop
  · -- No edit stores the name, so neither backend touches it.
    rw [hsame, ← hvals]
    refine hbetween.others name (fun op hop hname => ?_)
    obtain ⟨edit, hedit, hdes, -⟩ := forall₂_mem_left hops.flip hop
    obtain ⟨plan, hmem, hplan⟩ := forall₂_mem_left hplans hedit
    rw [← map_snd_zip hplans.length_eq.ge] at hmem
    obtain ⟨p, hp, rfl⟩ := mem_map.mp hmem
    exact hne p hp ((designates_eq hvals hdes hplan).trans hname)

/-- After any run of batches that both backends accept, both hold the references of the abstract
store that the batches were applied to. A reader gets the same from either, under every name that the
files can hold: one that is no directory and not below a loose file. -/
theorem backends_agree (hz : codec.zlib.Inverts) {stores stores' : Stores} {batches : List (List RefEdit)}
    (h : Hold codec files refs stores before)
    (hrun : Labelled.Run (BothAccept codec files refs) stores batches stores') :
    ∃ after, Labelled.Run (Applies refs) before batches after ∧ Hold codec files refs stores' after ∧
      ∀ directory name, Files.checkPath files stores'.1 directory name = .ok () →
        Files.readChecked files stores'.1 directory name = refs.read codec stores'.2 name := by
  obtain ⟨after, habstract, hhold⟩ := hrun.simulate (hold_step hz) h
  refine ⟨after, habstract, hhold, fun directory name hpath => ?_⟩
  rw [Files.readChecked, hpath, read_target hhold.1]
  exact hhold.2 name

def sampleTag : RefEdit :=
  ⟨⟨ascii "refs/tags/w", by decide +kernel⟩, .stored, some (.direct (sampleId 9)), .absent, .preserve⟩

def emptyStores : Stores := (⟨none, fun _ => none, fun _ => none⟩, fun _ => ⟨none, fun _ => none⟩)

def emptyView : StoreView := fun _ => ⟨fun _ => none, fun _ _ => none, 0⟩

/-- A first tag is accepted by both. -/
theorem backends_agree_sampleTag :
    ∃ stores', Labelled.Run (BothAccept moveCodec ⟨.sha1, [], []⟩ sampleRefs) emptyStores [[sampleTag]] stores' ∧
      ∃ after, Labelled.Run (Applies sampleRefs) emptyView [[sampleTag]] after ∧
        Hold moveCodec ⟨.sha1, [], []⟩ sampleRefs stores' after ∧
        ∀ directory name, Files.checkPath ⟨.sha1, [], []⟩ stores'.1 directory name = .ok () →
          Files.readChecked ⟨.sha1, [], []⟩ stores'.1 directory name = sampleRefs.read moveCodec stores'.2 name := by
  have hhold : Hold moveCodec ⟨.sha1, [], []⟩ sampleRefs emptyStores emptyView := by
    refine ⟨fun _ _ => ⟨_, rfl, rfl⟩, fun name => ?_⟩
    cases hname : name.perWorktree <;> simp [Files.read, Files.readLoose, emptyStores, hname] <;> rfl
  obtain ⟨store, outs, hfiles⟩ := exists_snd_ok
    (x := Files.transaction ⟨.sha1, [], []⟩ .resolved (fun _ => none) emptyStores.1 [sampleTag])
    (by decide +kernel)
  obtain ⟨dirs, outs', hdirs⟩ := exists_snd_ok
    (x := Reftable.transaction moveCodec sampleRefs (fun _ => [5]) emptyStores.2 [sampleTag])
    (by decide +kernel)
  refine ⟨(store, dirs), ?_, backends_agree moveCodec_inverts hhold ?_⟩ <;>
    exact .cons ⟨⟨_, _, _, hfiles⟩, _, _, hdirs⟩ (.nil _)

end Girt.Proofs
