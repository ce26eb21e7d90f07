import Mathlib.Algebra.BigOperators.Ring.Finset
import Girt.Proofs.Connectivity
import Girt.Push.Ancestry

/-!
# Fast-forward proofs are exact

A commit on a path to the old commit is no ancestor of it, so once it is painted from the new commit
it stays open until it is popped. A popped commit has passed its paint on, and so the paint of the new
commit comes down every path to the old one.
-/

namespace Girt.Push
open Relation Function Finset Walk

variable {objs : Objects} {old new id parent : ObjectId} {node : CommitNode} {walk : Walk}
  {rest : List ObjectId}

def Objects.Parent (objs : Objects) (id parent : ObjectId) : Prop :=
  ∃ node, objs.node id = some node ∧ parent ∈ node.parents

/-- Parents of commits are commits, and no commit is an ancestor of itself. -/
structure Objects.History (objs : Objects) : Prop where
  closed : ∀ id parent, objs.Parent id parent → ∃ node, objs.node parent = some node
  acyclic : ∀ id, ¬ TransGen objs.Parent id id

def Objects.cost (objs : Objects) (id : ObjectId) : Nat := (objs.node id).elim 0 (·.parents.length + 1)

open Classical in
/-- The paint of a commit once everything is painted. -/
noncomputable def Objects.reached (objs : Objects) (old new id : ObjectId) : Paint :=
  (decide (ReflTransGen objs.Parent new id), decide (ReflTransGen objs.Parent old id))

lemma reached_le (h : objs.Parent id parent) :
    objs.reached old new id ≤ objs.reached old new parent := by
  constructor <;> simpa [Objects.reached, Bool.le_iff_imp] using fun hpath => ReflTransGen.tail hpath h

namespace Walk

def openAt (old : ObjectId) (walk : Walk) (id : ObjectId) : Nat :=
  (walk.queued id && pending old id (walk.paints id)).toNat

/-- How often a commit can still be popped: now if it is queued, and after each paint that it lacks. -/
def left (walk : Walk) (id : ObjectId) : Nat :=
  (! (walk.paints id).1).toNat + (! (walk.paints id).2).toNat + (walk.queued id).toNat

noncomputable def need (objs : Objects) (walk : Walk) : Nat := ∑ id, objs.cost id * walk.left id

/-- A walk after a commit got a paint that it lacked. -/
def painted (old : ObjectId) (paint : Paint) (walk : Walk) (id : ObjectId) (date : Int) : Walk :=
  { walk with
    paints := update walk.paints id (walk.paints id ⊔ paint)
    queued := update walk.queued id true
    queue := walk.queue ++ if walk.queued id then [] else [(date, id)]
    opened := walk.opened + (pending old id (walk.paints id ⊔ paint)).toNat - walk.openAt old id }

end Walk

lemma ancestryCommit_of_node (h : objs.node id = some node) (required : Bool) :
    objs.ancestryCommit id required = .ok (some node) := by
  revert h
  simp only [Objects.node, Objects.ancestryCommit, ByteLib.wrapError, bind, Except.bind]
  rcases objs.read id with error | _ | object
  · simp
  · simp
  · by_cases hkind : object.kind = .commit
    · rcases hparse : parseCommit objs.format id object with error | found <;>
        simp [hkind, hparse, Functor.map, Except.map]
    · simp [hkind]

lemma sum_change {f g : ObjectId → Nat} (id : ObjectId) (h : ∀ other ≠ id, f other = g other) :
    ∑ other, f other + g id = ∑ other, g other + f id := by
  rw [← add_sum_erase _ f (mem_univ id), ← add_sum_erase _ g (mem_univ id),
    sum_congr rfl fun other hother => h other (ne_of_mem_erase hother)]
  ring

/-- The state of a walk while the parents of a popped commit are painted; `rest` are those to come. -/
structure Painting (objs : Objects) (old new : ObjectId) (walk : Walk) (id : ObjectId) (rest : List ObjectId) : Prop where
  sound : walk.paints ≤ objs.reached old new
  queued : ∀ other, (walk.queue.map Prod.snd).count other = (walk.queued other).toNat
  known : ∀ other, walk.queued other → ∃ node, objs.node other = some node
  opened : walk.opened = ∑ other, walk.openAt old other
  followed : ∀ other parent, walk.queued other = false → objs.Parent other parent →
    (other = id → parent ∉ rest) → walk.paints other ≤ walk.paints parent
  answer : walk.queued old = false → (walk.paints old).1 = false

namespace Painting

lemma withSteps (h : Painting objs old new walk id rest) (steps : Nat) :
    Painting objs old new { walk with steps := steps } id rest :=
  ⟨h.sound, h.queued, h.known, h.opened, h.followed, h.answer⟩

lemma tail (h : Painting objs old new walk id (parent :: rest))
    (hle : walk.paints id ≤ walk.paints parent) : Painting objs old new walk id rest := by
  refine { h with followed := fun other next hout hedge hrest => ?_ }
  by_cases hlast : other = id ∧ next = parent
  · exact hlast.1 ▸ hlast.2 ▸ hle
  · exact h.followed other next hout hedge (by grind)

/-- Without open commits the paint of the new commit was passed on along every path that leads to
the old one, which has none. -/
lemma unreached (h : Painting objs old new walk id []) (hist : objs.History)
    (hroot : (walk.paints new).1) (hopened : walk.opened = 0) :
    ¬ ReflTransGen objs.Parent new old := by
  have hclosed : ∀ other, pending old other (walk.paints other) → walk.queued other = false := by
    intro other hpending
    simpa [openAt, hpending] using sum_eq_zero_iff.mp (h.opened.symm.trans hopened) other (mem_univ other)
  intro hpath
  refine ReflTransGen.head_induction_on (motive := fun other _ => (walk.paints other).1 = true →
    False) hpath
    ?_ ?_ hroot
  · intro hpaint
    simp [h.answer (hclosed old (by simp [pending, hpaint]))] at hpaint
  · intro other parent hedge hpath ih hpaint
    -- a path from the old commit to this one would close a cycle
    have hfirst : (walk.paints other).2 = false := by
      by_contra hold
      have hback : ReflTransGen objs.Parent old other := by
        simpa [Objects.reached] using (h.sound other).2 (by simpa using hold)
      exact hist.acyclic other ((TransGen.head' hedge hpath).trans_left hback)
    exact ih ((h.followed other parent (hclosed other (by simp [pending, hpaint, hfirst])) hedge (by simp)).1 hpaint)

lemma left_paint : ∀ (before paint : Paint) (queued : Bool), ¬ paint ≤ before →
    (! (before ⊔ paint).1).toNat + (! (before ⊔ paint).2).toNat + 1 ≤
      (! before.1).toNat + (! before.2).toNat + queued.toNat := by decide

lemma painted (paint : Paint) (h : Painting objs old new walk id rest)
    (hnode : objs.node parent = some node) (hreach : paint ≤ objs.reached old new parent)
    (hnot : ¬ paint ≤ walk.paints parent) (date : Int) :
    Painting objs old new (walk.painted old paint parent date) id rest ∧
      need objs (walk.painted old paint parent date) ≤ walk.need objs := by
  have hmono : walk.paints ≤ (walk.painted old paint parent date).paints :=
    le_update_iff.mpr ⟨le_sup_left, fun _ _ => le_rfl⟩
  have hother : ∀ other, (walk.painted old paint parent date).queued other = false →
      (walk.painted old paint parent date).paints other = walk.paints other ∧ walk.queued other = false := by
    intro other hout
    have hne : other ≠ parent := by
      rintro rfl
      simp [Walk.painted] at hout
    simpa [Walk.painted, hne] using hout
  refine ⟨⟨update_le_iff.mpr ⟨sup_le (h.sound parent) hreach, fun other _ => h.sound other⟩,
    fun other => ?_,
    fun other => ?_, ?_, fun other next hout hedge hrest => ?_, fun hout => ?_⟩,
    sum_le_sum fun other _ => ?_⟩
  · have hcount := h.queued other
    simp only [Walk.painted, update_apply, List.map_append, List.count_append]
    grind
  · have hknown := h.known other
    simp only [Walk.painted, update_apply]
    grind
  · have hsum := sum_change (f := walk.openAt old)
      (g := openAt old (walk.painted old paint parent date)) parent
      fun other hne => by simp [openAt, Walk.painted, hne]
    have hopen : openAt old (walk.painted old paint parent date) parent =
        (pending old parent (walk.paints parent ⊔ paint)).toNat := by simp [openAt, Walk.painted]
    change walk.opened + _ - _ = _
    rw [h.opened]
    omega
  · rw [(hother other hout).1]
    exact (h.followed other next (hother other hout).2 hedge hrest).trans (hmono next)
  · rw [(hother old hout).1]
    exact h.answer (hother old hout).2
  · refine Nat.mul_le_mul_left _ ?_
    by_cases heq : other = parent
    · simpa [left, Walk.painted, heq] using left_paint _ _ _ hnot
    · simp [left, Walk.painted, heq]

lemma passed (h : Painting objs old new walk id (parent :: rest)) (hist : objs.History)
    (hparent : objs.Parent id parent) (hsteps : walk.steps ≠ 0) :
    ∃ walk', paintParent objs old (walk.paints id) walk parent = .ok walk' ∧
      Painting objs old new walk' id rest ∧
      walk.paints ≤ walk'.paints ∧ walk'.paints id = walk.paints id ∧ walk'.steps + 1 = walk.steps ∧
      walk'.need objs ≤ walk.need objs := by
  obtain ⟨node, hnode⟩ := hist.closed id parent hparent
  have hone : walk.steps - 1 + 1 = walk.steps := by omega
  simp only [paintParent, ancestryStep, if_neg hsteps, bind, Except.bind, sup_eq_left,
    ancestryCommit_of_node hnode]
  have hnext := h.withSteps (walk.steps - 1)
  by_cases hle : walk.paints id ≤ walk.paints parent
  · exact ⟨_, if_pos hle, hnext.tail hle, le_rfl, rfl, hone, le_rfl⟩
  have hself : id ≠ parent := fun heq => hist.acyclic id (.single (heq ▸ hparent))
  obtain ⟨hpainted, hneed⟩ := hnext.painted _ hnode ((h.sound id).trans (reached_le hparent)) hle node.date
  have hsame : update walk.paints parent (walk.paints parent ⊔ walk.paints id) id =
      walk.paints id := update_of_ne hself _ _
  refine ⟨_, ?_, hpainted.tail ?_, le_update_iff.mpr ⟨le_sup_left, fun _ _ => le_rfl⟩, hsame, hone, hneed⟩
  · rw [if_neg hle]
    cases hqueued : walk.queued parent
    · simp [push, Walk.painted, openAt, hqueued]
    · cases hbefore : pending old parent (walk.paints parent) <;>
        cases hafter : pending old parent (walk.paints parent ⊔ walk.paints id) <;>
        simp [Walk.painted, openAt, hqueued, hbefore, hafter]
  · refine hsame.trans_le ?_
    simp [Walk.painted]

lemma parents (hist : objs.History) (paint : Paint) : ∀ (rest : List ObjectId) (walk : Walk),
    Painting objs old new walk id rest → walk.paints id = paint → (∀ parent ∈ rest, objs.Parent id parent) →
    walk.steps < rest.length ∧ rest.foldlM (paintParent objs old paint) walk = .error (.limit "ancestry steps") ∨
    ∃ walk', rest.foldlM (paintParent objs old paint) walk = .ok walk' ∧ Painting objs old new walk' id [] ∧
      walk.paints ≤ walk'.paints ∧ walk'.steps + rest.length = walk.steps ∧ walk'.need objs ≤ walk.need objs := by
  intro rest
  induction rest with
  | nil => exact fun walk h _ _ => .inr ⟨walk, rfl, h, le_rfl, rfl, le_rfl⟩
  | cons parent rest ih =>
    intro walk h hpaint hparents
    rw [List.foldlM_cons]
    by_cases hsteps : walk.steps = 0
    · exact .inl ⟨by simp [hsteps], by simp [paintParent, ancestryStep, hsteps, bind, Except.bind]⟩
    obtain ⟨walk', hok, hnext, hmono, hsame, hone, hneed⟩ := h.passed hist (hparents parent (by simp)) hsteps
    rw [← hpaint, hok, hpaint]
    rcases ih walk' hnext (hsame.trans hpaint) (fun other hin => hparents other (by simp [hin])) with
      ⟨hlt, herror⟩ | ⟨last, hlast, hdone, hle, hsum, hneed'⟩
    · exact .inl ⟨by simp; omega, herror⟩
    · exact .inr ⟨last, hlast, hdone, hmono.trans hle, by simp; omega, hneed'.trans hneed⟩

lemma popped (h : Painting objs old new walk id []) (hopened : walk.opened ≠ 0) :
    ∃ next queued queue node, walk.pop = some (next, { walk with queued := queued, queue := queue }) ∧
      objs.node next = some node ∧
      need objs { walk with queued := queued, queue := queue } + objs.cost next = walk.need objs ∧
      (¬ (next = old ∧ (walk.paints next).1) → ∀ steps, Painting objs old new ⟨walk.paints, queued, queue,
        walk.opened - (pending old next (walk.paints next)).toNat, steps⟩ next node.parents) := by
  obtain ⟨other, -, hother⟩ := exists_ne_zero_of_sum_ne_zero (h.opened ▸ hopened)
  have hne : walk.queue.toFinset.Nonempty := by
    have hin := h.queued other
    rw [List.toFinset_nonempty_iff]
    intro hempty
    simp_all [openAt]
  obtain ⟨latest, hlatest, hle⟩ := exists_max_image _ Prod.fst hne
  have hfind : (walk.queue.find? fun entry => walk.queue.all (·.1 ≤ entry.1)).isSome :=
    List.find?_isSome.mpr ⟨latest, List.mem_toFinset.mp hlatest, by simpa using hle⟩
  obtain ⟨⟨date, next⟩, hmax⟩ := Option.isSome_iff_exists.mp hfind
  have hcount : ∀ other, ((walk.queue.erase (date, next)).map Prod.snd).count other + (if next = other then 1 else 0) =
      (walk.queued other).toNat := by
    intro other
    rw [← h.queued, ((List.perm_cons_erase (List.mem_of_find?_eq_some hmax)).map Prod.snd).count_eq,
      List.map_cons, List.count_cons]
    simp
  have hin : walk.queued next := by
    have := hcount next
    grind
  obtain ⟨node, hnode⟩ := h.known next hin
  refine ⟨next, update walk.queued next false, walk.queue.erase (date, next), node,
    by rw [pop, hmax]; rfl, hnode, ?_,
    fun hold steps => ⟨h.sound, fun other => ?_, fun other hother => ?_, ?_,
      fun other parent hout hedge hrest => ?_, fun hout => ?_⟩⟩
  · have hsum := sum_change (f := fun id => objs.cost id * walk.left id)
      (g := fun id => objs.cost id * left { walk with queued := update walk.queued next false } id) next
      fun other hne => by simp [left, hne]
    simp only [need, left, update_self, hin, Bool.toNat_true, Bool.toNat_false, Nat.mul_add,
      Nat.mul_one] at hsum ⊢
    omega
  · have hother := hcount other
    grind [update_apply]
  · exact h.known other (by grind [update_apply])
  · have hsum := sum_change (f := walk.openAt old)
      (g := openAt old { walk with queued := update walk.queued next false })
      next fun other hne => by simp [openAt, hne]
    have hopen := h.opened
    simp only [openAt, update_self, hin, Bool.true_and, Bool.false_and, Bool.toNat_false] at hsum hopen ⊢
    omega
  · by_cases heq : other = next
    · obtain ⟨node', hnode', hparent⟩ := hedge
      grind
    · exact h.followed other parent (by simpa [heq] using hout) hedge (by simp)
  · by_cases heq : next = old
    · simpa [heq] using hold
    · exact h.answer (by simpa [Ne.symm heq] using hout)

lemma run (hist : objs.History) (fuel : Nat) : ∀ (walk : Walk) (id : ObjectId),
    Painting objs old new walk id [] → (walk.paints new).1 → walk.steps < fuel →
    walk.steps < walk.need objs ∧ walk.run objs old fuel = .error (.limit "ancestry steps") ∨
    ∃ answer left, walk.run objs old fuel = .ok (answer, left) ∧ (answer ↔ ReflTransGen objs.Parent new old) := by
  induction fuel with
  | zero => intro walk id h hroot hfuel; omega
  | succ fuel ih =>
    intro walk id h hroot hfuel
    rw [Walk.run]
    by_cases hopened : walk.opened = 0
    · exact .inr ⟨false, _, if_pos hopened, by simp [h.unreached hist hroot hopened]⟩
    obtain ⟨next, queued, queue, node, hpop, hnode, hneed, hnext⟩ := h.popped hopened
    have hcost : objs.cost next = node.parents.length + 1 := by simp [Objects.cost, hnode]
    simp only [if_neg hopened, hpop, ancestryStep]
    by_cases hzero : walk.steps = 0
    · exact .inl ⟨by omega, by simp [hzero, bind, Except.bind]⟩
    simp only [if_neg hzero, bind, Except.bind, hnode, Option.map_some, Option.getD_some]
    by_cases hfound : next = old ∧ (walk.paints next).1
    · exact .inr ⟨true, _, if_pos hfound, by simpa [Objects.reached, hfound.1] using (h.sound next).1 hfound.2⟩
    rw [if_neg hfound]
    rcases (hnext hfound (walk.steps - 1)).parents hist _ node.parents _ rfl
      (fun parent hin => ⟨node, hnode, hin⟩) with
      ⟨hlt, herror⟩ | ⟨last, hlast, hdone, hmono, hsum, hle⟩
    · refine .inl ⟨?_, by rw [herror]⟩
      simp only at hlt
      omega
    · rw [hlast]
      simp only at hsum
      change last.need objs ≤ need objs { walk with queued := queued, queue := queue } at hle
      rcases ih last next hdone ((hmono new).1 hroot) (by omega) with ⟨hlt, herror⟩ | hanswer
      · exact .inl ⟨by omega, herror⟩
      · exact .inr hanswer

end Painting

/-- For distinct commits the walk is exact whatever the dates are, unless its steps do not allow for
two visits of every commit and its parents. -/
lemma isAncestor_cases (hist : objs.History) (hne : old ≠ new) (hold : (objs.node old).isSome)
    (hnew : (objs.node new).isSome) (steps : Nat) :
    steps < 2 * ∑ id, objs.cost id ∧
      isAncestor objs steps old new = .error (.limit "ancestry steps") ∨
      ∃ answer left, isAncestor objs steps old new = .ok (answer, left) ∧
      (answer ↔ ReflTransGen objs.Parent new old) := by
  obtain ⟨first, hfirst⟩ := Option.isSome_iff_exists.mp hnew
  obtain ⟨second, hsecond⟩ := Option.isSome_iff_exists.mp hold
  have hempty : Painting objs old new ⟨⊥, fun _ => false, [], 0, steps⟩ old [] :=
    ⟨bot_le, by simp, by simp, by simp [openAt], fun _ _ _ _ _ => bot_le, fun _ => rfl⟩
  have hneed : need objs ⟨⊥, fun _ => false, [], 0, steps⟩ = 2 * ∑ id, objs.cost id := by
    simp [need, left, mul_sum, mul_comm]
  -- both commits are painted as parents are
  obtain ⟨hone, hle⟩ := hempty.painted (true, false) hfirst
    ⟨by simp [Objects.reached, ReflTransGen.refl], Bool.false_le _⟩ (show ¬ _ ≤ (⊥ : Paint) by decide) first.date
  obtain ⟨htwo, hle'⟩ := hone.painted (false, true) hsecond
    ⟨Bool.false_le _, by simp [Objects.reached, ReflTransGen.refl]⟩ (by simp [painted, hne]; decide) second.date
  have hrun := htwo.run hist (steps + 1) _ _ (by simp [painted, hne.symm]) (Nat.lt_succ_self steps)
  have hwalk : isAncestor objs steps old new = Walk.run objs old (steps + 1) (painted old (false, true)
      (painted old (true, false) ⟨⊥, fun _ => false, [], 0, steps⟩ new first.date) old second.date) := by
    simp [isAncestor, ancestryCommit_of_node hfirst, ancestryCommit_of_node hsecond, painted, push,
      openAt, pending, hne,
      bind, Except.bind]
  rw [hwalk]
  rcases hrun with ⟨hlt, herror⟩ | hanswer
  · exact .inl ⟨hlt.trans_le (hneed ▸ hle'.trans hle), herror⟩
  · exact .inr hanswer

/-- A command whose update needs no force. -/
def PushCommand.Permitted (objs : Objects) (command : PushCommand) : Prop :=
  command.deletes = true ∨ command.force = .allow ∨ ∀ old ∈ command.expected, old = command.new ∨
    ¬ ascii "refs/tags/" <+: command.name.bytes ∧
      (ascii "refs/heads/" <+: command.name.bytes → ReflTransGen objs.Parent command.new old)

/-- The commits of a branch that is updated are known. -/
def PushCommand.Known (objs : Objects) (command : PushCommand) : Prop :=
  ascii "refs/heads/" <+: command.name.bytes → command.deletes = false →
    ∀ id ∈ command.new :: command.expected.toList, (objs.node id).isSome

/-- How the check of one command or of many ends. -/
inductive Checked (objs : Objects) (commands : List PushCommand) : Except Error Nat → Prop
  | limit : Checked objs commands (.error (.limit "ancestry steps"))
  | permitted (left : Nat) : (∀ command ∈ commands, command.Permitted objs) → Checked objs commands (.ok left)
  | refused (command : PushCommand) : command ∈ commands → ¬ command.Permitted objs →
    Checked objs commands (.error (.wouldForce command.name))

lemma checkFastForward_checked (hist : objs.History) {command : PushCommand}
    (hknown : command.Known objs) (steps : Nat) :
    Checked objs [command] (checkFastForward objs steps command) := by
  have hper : ∀ left, command.Permitted objs → Checked objs [command] (.ok left) := fun left h =>
    .permitted left (List.forall_mem_singleton.mpr h)
  unfold checkFastForward
  by_cases hskip : command.deletes = true ∨ command.force = .allow
  · rw [if_pos hskip]
    exact hper _ (hskip.imp_right .inl)
  rw [if_neg hskip]
  rw [not_or, Bool.not_eq_true] at hskip
  split
  · rename_i hnone
    exact hper _ (.inr (.inr (by simp [hnone])))
  rename_i old hold
  have hiff : command.Permitted objs ↔ old = command.new ∨ ¬ ascii "refs/tags/" <+: command.name.bytes ∧
      (ascii "refs/heads/" <+: command.name.bytes → ReflTransGen objs.Parent command.new old) := by
    simp [PushCommand.Permitted, hskip, hold]
  split_ifs with hsame hhead htag
  · exact hper _ (hiff.mpr (.inl hsame))
  · have hids := hknown hhead hskip.1
    rw [hold] at hids
    have htag : ¬ ascii "refs/tags/" <+: command.name.bytes := fun htag =>
      absurd (List.prefix_of_prefix_length_le htag hhead (by decide)) (by decide)
    rcases isAncestor_cases hist hsame (hids old (by simp)) (hids command.new (by simp)) steps with
      ⟨-, hwalk⟩ | ⟨answer, left, hwalk, hanswer⟩
    · rw [hwalk]
      exact .limit
    · rw [hwalk]
      cases answer with
      | false =>
        refine .refused command (.head _) fun hallow => ?_
        simpa using hanswer.mpr (((hiff.mp hallow).resolve_left hsame).2 hhead)
      | true => exact hper _ (hiff.mpr (.inr ⟨htag, fun _ => hanswer.mp rfl⟩))
  · exact .refused command (.head _) fun hallow => ((hiff.mp hallow).resolve_left hsame).1 htag
  · exact hper _ (hiff.mpr (.inr ⟨htag, fun h => absurd h hhead⟩))

lemma Checked.bind {command : PushCommand} {commands : List PushCommand} {first : Except Error Nat}
    {rest : Nat → Except Error Nat}
    (h : Checked objs [command] first) (hrest : ∀ left, Checked objs commands (rest left)) :
    Checked objs (command :: commands) (first >>= rest) := by
  cases h with
  | limit => exact .limit
  | refused other hmem hnot => exact .refused other (List.mem_cons.mpr (.inl (List.mem_singleton.mp hmem))) hnot
  | permitted left hfirst =>
    have hlast := hrest left
    change Checked objs _ (rest left)
    generalize rest left = result at hlast ⊢
    cases hlast with
    | limit => exact .limit
    | permitted left hall => exact .permitted left (List.forall_mem_cons.mpr ⟨hfirst command (.head _), hall⟩)
    | refused other hmem hnot => exact .refused other (.tail _ hmem) hnot

/-- For distinct commits of an acyclic history the walk is exact whatever the dates are, unless its
steps do not allow for two visits of every commit and its parents. A push, which skips equal commits,
is refused exactly for a command that needs force, or for want of steps. -/
theorem isAncestor_iff_reached (objects : Objects) (history : objects.History) (steps : Nat) :
    (∀ old new, old ≠ new → (objects.node old).isSome → (objects.node new).isSome →
      steps < 2 * ∑ id, objects.cost id ∧ isAncestor objects steps old new = .error (.limit "ancestry steps") ∨
      ∃ answer left, isAncestor objects steps old new = .ok (answer, left) ∧
        (answer ↔ ReflTransGen objects.Parent new old)) ∧
    ∀ commands, (∀ command ∈ commands, command.Known objects) →
      Checked objects commands (checkFastForwards objects steps commands) := by
  refine ⟨fun old new hne hold hnew => isAncestor_cases history hne hold hnew steps, fun commands => ?_⟩
  induction commands generalizing steps with
  | nil => exact fun _ => .permitted steps (by simp)
  | cons command commands ih =>
    intro hknown
    exact (checkFastForward_checked history (hknown command (.head _)) steps).bind fun left =>
      ih left fun other hother => hknown other (.tail _ hother)

def sampleId (byte : UInt8) : ObjectId := ⟨.sha1, byte :: List.replicate 19 0, rfl⟩

/-- The root commit `sampleId 0`, and a child of it with an earlier date. -/
def sampleObjects : Objects where
  format := .sha1
  read id :=
    let zeros := String.ofList (List.replicate 40 '0')
    let commit (parents date : String) : Object :=
      ⟨.commit, ascii ("tree " ++ zeros ++ "\n" ++ parents ++ "committer A <a> " ++ date ++ " +0000\n\n")⟩
    .ok (if id = sampleId 0 then some (commit "" "7")
      else if id = sampleId 1 then some (commit ("parent " ++ zeros ++ "\n") "5") else none)

lemma sample_nodes : sampleObjects.node (sampleId 0) = some ⟨[], 7⟩ ∧
    sampleObjects.node (sampleId 1) = some ⟨[sampleId 0], 5⟩ := by decide +kernel

/-- A commit is found to be no ancestor of itself only after the queue has run empty: the paint of the
new commit was replaced by that of the old one. And too few steps give no answer. -/
theorem isAncestor_same_panics :
    isAncestor sampleObjects 9 (sampleId 0) (sampleId 0) = .error (.panic "open commits are queued") ∧
      isAncestor sampleObjects 1 (sampleId 0) (sampleId 1) = .error (.limit "ancestry steps") := by decide +kernel

lemma sample_parent (h : sampleObjects.Parent id parent) :
    id = sampleId 1 ∧ parent = sampleId 0 := by
  obtain ⟨node, hnode, hin⟩ := h
  by_cases hzero : id = sampleId 0
  · rw [hzero, sample_nodes.1] at hnode
    cases hnode
    cases hin
  by_cases hone : id = sampleId 1
  · rw [hone, sample_nodes.2] at hnode
    cases hnode
    exact ⟨hone, List.mem_singleton.mp hin⟩
  · simp [Objects.node, Objects.ancestryCommit, sampleObjects, hzero, hone, ByteLib.wrapError, bind,
      Except.bind] at hnode

lemma sample_history : sampleObjects.History := by
  refine ⟨fun id parent hedge => ⟨_, (sample_parent hedge).2 ▸ sample_nodes.1⟩, fun id hcycle => ?_⟩
  obtain ⟨next, hfirst, -⟩ := TransGen.head'_iff.mp hcycle
  obtain ⟨last, -, hlast⟩ := TransGen.tail'_iff.mp hcycle
  exact absurd ((sample_parent hlast).2.symm.trans (sample_parent hfirst).1) (by decide)

theorem isAncestor_iff_reached_sample :
    ReflTransGen sampleObjects.Parent (sampleId 1) (sampleId 0) := by
  have hwalk : isAncestor sampleObjects 6 (sampleId 0) (sampleId 1) = .ok (true, 2) := by decide +kernel
  rcases (isAncestor_iff_reached sampleObjects sample_history 6).1 (sampleId 0) (sampleId 1) (by decide) (by decide +kernel)
    (by decide +kernel) with ⟨-, herror⟩ | ⟨answer, left, hok, hiff⟩
  · rw [hwalk] at herror
    cases herror
  · rw [hwalk] at hok
    cases hok
    exact hiff.mp rfl

end Girt.Push
