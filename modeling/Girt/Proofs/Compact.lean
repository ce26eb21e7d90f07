import Girt.ContentDiff.Compact
import Girt.Proofs.Myers

/-!
# Placement keeps the retained lines

A group moves over a line only when that line equals the one at its other end, so the retained lines stay the
same sequence.
-/

namespace Girt.ContentDiff
open ByteLib EditGraph List
open ContentEdit (newLines oldLines)

section Kept

variable {α : Type}
variable {lines : List α} {flags : List Bool}

def kept : List α → List Bool → List α
  | line :: lines, flag :: flags => if flag then kept lines flags else line :: kept lines flags
  | _, _ => []

lemma length_kept (h : lines.length = flags.length) :
    (kept lines flags).length = flags.count false := by
  induction lines generalizing flags with
  | nil =>
    cases flags with
    | nil => rfl
    | cons => cases h
  | cons line lines ih =>
    cases flags with
    | nil => cases h
    | cons flag flags =>
      rw [length_cons, length_cons, Nat.add_right_cancel_iff] at h
      cases flag with
      | false | true => simp [kept, ih h]

lemma cons_kept {line : α} {t : Nat} (hline : lines[t]? = some line)
    (hrun : ∀ k ≤ t, flags[k]? = some true) :
    line :: kept lines flags = kept lines (flags.set t false) := by
  induction lines generalizing flags t with
  | nil => cases hline
  | cons first lines ih =>
    cases flags with
    | nil => cases hrun 0 (Nat.zero_le _)
    | cons flag flags =>
      obtain rfl : flag := by simpa using hrun 0 (Nat.zero_le _)
      cases t with
      | zero =>
        obtain rfl : first = line := by simpa using hline
        rfl
      | succ t =>
        have hrest := @ih flags t (by simpa using hline) fun k hk => by simpa using hrun (k + 1) (by omega)
        simpa [kept] using hrest

lemma kept_exchange {i j : Nat} (hij : i < j) (hfirst : flags[i]? = some false)
    (hrun : ∀ k, i < k → k ≤ j → flags[k]? = some true) (hline : lines[i]? = lines[j]?)
    (hj : j < lines.length) : kept lines ((flags.set j false).set i true) = kept lines flags := by
  induction lines generalizing flags i j with
  | nil => simp at hj
  | cons line lines ih =>
    obtain ⟨t, rfl⟩ : ∃ t, j = t + 1 := ⟨j - 1, by omega⟩
    cases flags with
    | nil => cases hfirst
    | cons flag flags =>
      cases i with
      | zero =>
        obtain rfl : flag = false := by simpa using hfirst
        have hcar : lines[t]? = some line := by simpa using hline.symm
        have hkept := @cons_kept _ lines flags line t hcar fun k hk => by
          simpa using hrun (k + 1) (by omega) (by omega)
        simp [kept, hkept]
      | succ i =>
        have hrest := @ih flags i t (by omega) (by simpa using hfirst)
          (fun k hk hk' => by simpa using hrun (k + 1) (by omega) (by omega)) (by simpa using hline) (by simpa using hj)
        simp [kept, hrest]

end Kept

section Move

variable {lines : Lines} {group : Group}
variable {changed bnds : List Bool} {earliest : Nat} {indent : Bool}
variable {i j : Nat} {aligned : Option Nat}

/-- A run of changed lines that ends where a retained line or the end follows. -/
structure Group.Run (lines : Lines) (group : Group) : Prop where
  all : ∀ k, group.start ≤ k → k < group.stop → group.changed[k]? = some true
  after : group.changed[group.stop]? ≠ some true
  rank : group.rank = (group.changed.take group.start).count false
  length : group.changed.length = lines.len

/-- No changed line comes right before the run either. -/
structure Group.Maximal (lines : Lines) (group : Group) : Prop extends group.Run lines where
  before : 0 < group.start → group.changed[group.start - 1]? = some false

/-- Two states of the changed lines retain the same lines. -/
def Group.SameKept (lines : Lines) (group moved : Group) : Prop :=
  kept lines.pieces moved.changed = kept lines.pieces group.changed

lemma getElem?_false {flags : List Bool} {k : Nat} (hk : k < flags.length)
    (h : flags[k]? ≠ some true) : flags[k]? = some false := by
  rw [getElem?_eq_getElem hk] at h ⊢
  simpa using h

/-- The flags after the changes of two lines are exchanged. -/
lemma getElem?_exchange {flags : List Bool} (hi : i < flags.length) (hj : j < flags.length) (k : Nat) :
    ((flags.set j false).set i true)[k]? = if k = i then some true else if k = j then some false else flags[k]? := by
  split_ifs with hki hkj
  · rw [hki, getElem?_set_self (by rwa [length_set])]
  · rw [getElem?_set_ne (Ne.symm hki), hkj, getElem?_set_self hj]
  · rw [getElem?_set_ne (Ne.symm hki), getElem?_set_ne (Ne.symm hkj)]

lemma line_eq_iff (hi : i < lines.len) (hj : j < lines.len) :
    lines.line i = lines.line j ↔ lines.pieces[i]? = lines.pieces[j]? := by
  rw [Lines.getElem?_pieces, Lines.getElem?_pieces, if_pos hi, if_pos hj, Option.some.injEq]

lemma take_succ_count {flag : Bool} (h : changed[i]? = some flag) :
    (changed.take (i + 1)).count false = (changed.take i).count false + if flag then 0 else 1 := by
  rw [take_add_one, h, count_append]
  cases flag <;> rfl

lemma count_take_run (hij : i ≤ j) (h : ∀ k, i ≤ k → k < j → changed[k]? = some true) :
    (changed.take j).count false = (changed.take i).count false := by
  induction j, hij using Nat.le_induction with
  | base => rfl
  | succ j hij ih =>
    rw [take_succ_count (h j hij (Nat.lt_succ_self j)), ih fun k hk hk' => h k hk (by omega)]
    rfl

lemma Group.Run.rotateUp (h : group.Run lines) (hst : 0 < group.start)
    (hbf : group.changed[group.start - 1]? = some false)
    (hline : lines.line (group.start - 1) = lines.line (group.stop - 1)) :
    (group.rotateUp hst).Run lines ∧ group.SameKept lines (group.rotateUp hst) := by
  have hnon := group.nonempty
  have hbou := group.bounded
  have hlen := h.length
  refine ⟨⟨fun k hk hk' => ?_, ?_, ?_, ?_⟩, ?_⟩
  · simp only [Group.rotateUp] at hk hk' ⊢
    rw [getElem?_exchange (by omega) (by omega)]
    split_ifs with hfirst
    · rfl
    · omega
    · exact h.all k (by omega) (by omega)
  · simp only [Group.rotateUp]
    rw [getElem?_exchange (by omega) (by omega), if_neg (by omega), if_pos rfl]
    simp
  · simp only [Group.rotateUp]
    have hcut := take_succ_count hbf
    rw [Nat.sub_add_cancel hst] at hcut
    rw [take_set_of_le (by omega), take_set_of_le (by omega), h.rank, hcut]
    rfl
  · simp [Group.rotateUp, hlen]
  · refine kept_exchange (by omega) hbf (fun k hk hk' => h.all k (by omega) (by omega)) ?_ ?_
    · exact (line_eq_iff (by omega) (by omega)).mp hline
    · rw [Lines.length_pieces]
      omega

lemma groupStart_spec (changed : List Bool) (start : Nat) :
    (∀ k, groupStart changed start ≤ k → k < start → changed[k]? = some true) ∧
      (0 < groupStart changed start → changed[groupStart changed start - 1]? ≠ some true) := by
  induction start with
  | zero => exact ⟨fun k _ hk => absurd hk (by omega), fun h => absurd h (by simp [groupStart])⟩
  | succ start ih =>
    rw [groupStart]
    split_ifs with hset
    · refine ⟨fun k hk hk' => ?_, ih.2⟩
      rcases Nat.lt_succ_iff_lt_or_eq.mp hk' with hlt | rfl
      · exact ih.1 k hk hlt
      · exact hset
    · exact ⟨fun k hk hk' => absurd hk' (by omega), fun _ => hset⟩

lemma Group.Run.absorb (h : group.Run lines) : group.absorb.Maximal lines := by
  obtain ⟨hrun, hstop⟩ := groupStart_spec group.changed group.start
  have hle := groupStart_le group.changed group.start
  have hnon := group.nonempty
  have hbou := group.bounded
  refine ⟨⟨fun k hk hk' => ?_, h.after, ?_, h.length⟩, fun hpos => ?_⟩
  · by_cases hlt : k < group.start
    · exact hrun k hk hlt
    · exact h.all k (by omega) hk'
  · rw [show group.absorb.rank = group.rank from rfl, h.rank]
    exact count_take_run hle hrun
  exact getElem?_false (by simp only [Group.absorb]; omega) (hstop hpos)

lemma Group.Maximal.slideUp (h : group.Maximal lines) :
    (group.slideUp lines).Maximal lines ∧ group.SameKept lines (group.slideUp lines) := by
  fun_induction Group.slideUp lines group with
  | case1 group hmove ih =>
    obtain ⟨hrun, hkept⟩ := h.toRun.rotateUp hmove.1 (h.before hmove.1) hmove.2
    obtain ⟨hmax, hrest⟩ := ih hrun.absorb
    exact ⟨hmax, hrest.trans hkept⟩
  | case2 group hstay => exact ⟨h, rfl⟩

lemma groupEnd_spec (changed : List Bool) (stop : Nat) :
    (∀ k, stop ≤ k → k < groupEnd changed stop → changed[k]? = some true) ∧
      changed[groupEnd changed stop]? ≠ some true := by
  fun_induction groupEnd changed stop with
  | case1 stop hset ih =>
    refine ⟨fun k hk hk' => ?_, ih.2⟩
    rcases Nat.eq_or_lt_of_le hk with rfl | hlt
    · exact hset
    · exact ih.1 k hlt hk'
  | case2 stop hset => exact ⟨fun k hk hk' => absurd hk' (by omega), hset⟩

lemma free_of_groupEnd {stop : Nat} (h : groupEnd changed stop = stop) :
    changed[stop]? ≠ some true := by
  have hend := (groupEnd_spec changed stop).2
  rwa [h] at hend

lemma Group.Maximal.rotateDown (h : group.Maximal lines) (hstop : group.stop < group.changed.length)
    (hline : lines.line group.start = lines.line group.stop) :
    (group.rotateDown hstop).Maximal lines ∧ group.SameKept lines (group.rotateDown hstop) := by
  have hnon := group.nonempty
  have hlen := h.length
  have hlt := group.lt_rotateDown_stop hstop
  obtain ⟨hrun, hend⟩ := groupEnd_spec (group.rotateDown hstop).changed group.stop
  have hflag := @getElem?_exchange _ group.start group.changed hstop (hnon.trans hstop)
  have hfirst : (group.rotateDown hstop).changed[group.start]? = some false := by
    rw [Group.rotateDown, hflag, if_neg hnon.ne, if_pos rfl]
  have hall : ∀ k, group.start < k → k < (group.rotateDown hstop).stop →
      (group.rotateDown hstop).changed[k]? = some true := by
    intro k hk hk'
    by_cases hlt : k < group.stop
    · rw [Group.rotateDown, hflag, if_neg hlt.ne, if_neg hk.ne']
      exact h.all k hk.le hlt
    · exact hrun k (not_lt.mp hlt) hk'
  -- moving back up restores the flags
  have hback : ((group.rotateDown hstop).changed.set group.stop false).set group.start true =
      group.changed := by
    refine ext_getElem? fun k => ?_
    simp only [Group.rotateDown]
    rw [getElem?_exchange (by simp only [length_set]; omega) (by simpa using hstop), hflag]
    split_ifs with hst hlast
    · rw [hst, h.all group.start le_rfl hnon]
    · rw [hlast, getElem?_false hstop h.after]
    · rfl
  refine ⟨⟨⟨hall, hend, ?_, ?_⟩, fun _ => hfirst⟩, ?_⟩
  · rw [show (group.rotateDown hstop).start = group.start + 1 from rfl, take_succ_count hfirst,
      Group.rotateDown,
      take_set_of_le hnon.le, take_set_of_le le_rfl, h.rank]
    rfl
  · simp [Group.rotateDown, hlen]
  have hkept := @kept_exchange _ lines.pieces _ group.start group.stop hnon hfirst
    (fun k hk hk' => hall k hk (hk'.trans_lt hlt)) ((line_eq_iff (by omega) (by omega)).mp hline)
    (by rw [Lines.length_pieces]; omega)
  rw [hback] at hkept
  exact hkept.symm

/-- What a group passed while it moved down with its size unchanged: retained lines that equal those
at its other end. -/
def Group.Slid (lines : Lines) (earliest : Nat) (group : Group) : Prop :=
  ∀ k, earliest ≤ k → k < group.start → group.changed[k]? = some false ∧ lines.line k = lines.line (k + group.size)

/-- The start that is aligned with the other side, if any, lies in the range of the group's moves. -/
def Between (earliest latest : Nat) (aligned : Option Nat) : Prop :=
  ∀ start ∈ aligned, earliest ≤ start ∧ start ≤ latest

lemma Between.choose {latest : Nat} (h : Between earliest latest aligned) (hle : earliest ≤ latest)
    (here : Bool) : Between earliest latest (if here then some latest else aligned) := by
  cases here with
  | false => exact h
  | true =>
    intro start hst
    cases hst
    exact ⟨hle, le_rfl⟩

lemma Group.rank_lt (h : group.Run lines)
    (hbounds : bnds.length = group.changed.count false + 1) : group.rank < bnds.length := by
  have hle := (take_sublist group.start group.changed).count_le false
  rw [h.rank, hbounds]
  omega

lemma count_kept (h : changed.length = lines.len) :
    (kept lines.pieces changed).length = changed.count false :=
  length_kept (by rw [Lines.length_pieces, h])

lemma Group.SameKept.count {moved : Group} (h : group.SameKept lines moved)
    (hgroup : group.changed.length = lines.len) (hmv : moved.changed.length = lines.len) :
    moved.changed.count false = group.changed.count false := by
  rw [← count_kept hmv, h, count_kept hgroup]

structure Group.Down (lines : Lines) (group moved : Group) : Prop where
  maximal : moved.Maximal lines
  kept : group.SameKept lines moved
  start : group.start ≤ moved.start
  slid : moved.size = group.size → moved.Slid lines group.start
  untouched : ∀ k < group.start, moved.changed[k]? = group.changed[k]?

lemma Group.Maximal.slideDown (h : group.Maximal lines)
    (hbounds : bnds.length = group.changed.count false + 1) (hear : earliest ≤ group.start)
    (hali : Between earliest group.start aligned) :
    ∃ moved aligned', group.slideDown lines bnds aligned = .ok (moved, aligned') ∧
      group.Down lines moved ∧ Between earliest moved.start aligned' := by
  fun_induction Group.slideDown lines bnds group aligned with
  | case1 group aligned hnone =>
    have hlt := Group.rank_lt h.toRun hbounds
    rw [getElem?_eq_getElem hlt] at hnone
    cases hnone
  | case2 group aligned boundary hbou aligned'' hdown ih =>
    obtain ⟨hmax, hkept⟩ := h.rotateDown hdown.1 hdown.2
    have hbet : Between earliest group.start aligned'' := hali.choose hear boundary
    have hst : (group.rotateDown hdown.1).start = group.start + 1 := rfl
    obtain ⟨moved, aligned', hsli, hmv, hfin⟩ := ih hmax
      (by rw [hkept.count h.length hmax.length]; exact hbounds) (by omega)
      (fun start hmem => ⟨(hbet start hmem).1, by have := (hbet start hmem).2; omega⟩)
    refine ⟨moved, aligned', hsli, ⟨hmv.maximal, hmv.kept.trans hkept, by have := hmv.start; omega,
      fun hsize => ?_, fun k hk => ?_⟩, hfin⟩
    · -- the size never shrinks, so it did not change in this step
      have hstep := (group.moved_rotateDown hdown.1).size
      have hrest := (Group.moved_slideDown lines hsli).size
      have hslid := hmv.slid (by omega)
      intro k hk hk'
      rcases Nat.eq_or_lt_of_le hk with rfl | hlt
      · have hgroup : group.start + group.size = group.stop := by
          have := group.nonempty
          rw [Group.size]
          omega
        refine ⟨?_, by rw [hsize, hgroup]; exact hdown.2⟩
        rw [hmv.untouched group.start (by omega)]
        exact hmax.before (by omega)
      · exact hslid k hlt hk'
    · have hnon := group.nonempty
      rw [hmv.untouched k (by omega)]
      simp only [Group.rotateDown]
      rw [getElem?_set_ne (by omega), getElem?_set_ne (by omega)]
  | case3 group aligned boundary hbou aligned'' hstay =>
    exact ⟨group, aligned'', rfl, ⟨h, rfl, le_refl _, fun _ k hk hk' => absurd hk' (by omega),
      fun _ _ => rfl⟩,
      hali.choose hear boundary⟩

lemma Group.Maximal.upDown (h : group.Maximal lines)
    (hbounds : bnds.length = group.changed.count false + 1) :
    ∃ down aligned, (group.slideUp lines).slideDown lines bnds none = .ok (down, aligned) ∧
      (group.slideUp lines).Down lines down ∧ group.SameKept lines down ∧
      Between (group.slideUp lines).start down.start aligned := by
  obtain ⟨hup, hkept⟩ := h.slideUp
  have hnone : Between (group.slideUp lines).start (group.slideUp lines).start none :=
    fun start hst => by cases hst
  obtain ⟨down, aligned, hsli, hdown, hbet⟩ := hup.slideDown
    (by rw [hkept.count h.length hup.length]; exact hbounds) (le_refl _) hnone
  exact ⟨down, aligned, hsli, hdown, hdown.kept.trans hkept, hbet⟩

structure Group.Settled (lines : Lines) (group settled : Group) (aligned : Option Nat) (earliest : Nat) : Prop where
  maximal : settled.Maximal lines
  kept : group.SameKept lines settled
  slid : settled.Slid lines earliest
  le_start : earliest ≤ settled.start
  aligned : Between earliest settled.start aligned

lemma Group.Maximal.settle (h : group.Maximal lines)
    (hbounds : bnds.length = group.changed.count false + 1) :
    ∃ settled aligned earliest, group.settle lines bnds = .ok (settled, aligned, earliest) ∧
      group.Settled lines settled aligned earliest := by
  fun_induction Group.settle lines bnds group with
  | case1 group up err herr =>
    obtain ⟨down, aligned, hsli, -⟩ := h.upDown hbounds
    rw [herr] at hsli
    cases hsli
  | case2 group up down aligned hsli hsize =>
    obtain ⟨down', aligned', hsli', hdown, hkept, hbet⟩ := h.upDown hbounds
    rw [hsli] at hsli'
    cases hsli'
    have hup : group.size ≤ up.size := (group.moved_slideUp lines).size
    have hdow := (Group.moved_slideDown lines hsli).size
    exact ⟨down, aligned, up.start, rfl, hdown.maximal, hkept,
      hdown.slid (show down.size = up.size by omega), hdown.start, hbet⟩
  | case3 group up down aligned hsli hsize ih =>
    obtain ⟨down', aligned', hsli', hdown, hkept, -⟩ := h.upDown hbounds
    rw [hsli] at hsli'
    cases hsli'
    obtain ⟨settled, aligned', earliest, hsettle, hset⟩ := ih hdown.maximal
      (by rw [hkept.count h.length hdown.maximal.length]; exact hbounds)
    exact ⟨settled, aligned', earliest, hsettle, hset.maximal, hset.kept.trans hkept, hset.slid,
      hset.le_start, hset.aligned⟩

lemma Group.Run.rotateUpTo {dest : Nat} (h : group.Run lines) (hslid : group.Slid lines earliest)
    (hle : earliest ≤ dest) : (group.rotateUpTo dest).Run lines ∧
      group.SameKept lines (group.rotateUpTo dest) := by
  fun_induction Group.rotateUpTo dest group with
  | case1 group hlt ih =>
    have hnon := group.nonempty
    have hpos : 0 < group.start := by omega
    obtain ⟨hfree, hline⟩ := hslid (group.start - 1) (by omega) (by omega)
    rw [show group.start - 1 + group.size = group.stop - 1 by rw [Group.size]; omega] at hline
    obtain ⟨hrun, hkept⟩ := h.rotateUp hpos hfree hline
    have hsize : (group.rotateUp hpos).size = group.size := by
      simp only [Group.size, Group.rotateUp]
      omega
    obtain ⟨hfin, hrest⟩ := ih hrun fun k hk hk' => by
      obtain ⟨hk₁, hk₂⟩ := hslid k hk (by simp only [Group.rotateUp] at hk'; omega)
      refine ⟨?_, by rw [hsize]; exact hk₂⟩
      simp only [Group.rotateUp] at hk' ⊢
      rw [getElem?_set_ne (by omega), getElem?_set_ne (by omega)]
      exact hk₁
    exact ⟨hfin, hrest.trans hkept⟩
  | case2 group hstay => exact ⟨h, rfl⟩

lemma le_boundaryFrom {len left pos best : Nat} {score : Score} (hpos : earliest ≤ pos)
    (hbest : earliest ≤ best) : earliest ≤ boundaryFrom lines len left pos best score := by
  induction left generalizing pos best score with
  | zero => exact hbest
  | succ left ih =>
    rw [boundaryFrom]
    split_ifs
    · exact ih (by omega) hpos
    · exact ih (by omega) hbest

lemma le_boundary {last length : Nat} : earliest ≤ boundary lines earliest last length := by
  unfold boundary
  split_ifs with h
  · exact le_of_eq h
  · exact le_boundaryFrom (le_trans (le_max_left _ _) (Nat.le_succ _)) (le_max_left _ _)

lemma Group.Settled.place {settled : Group} (h : group.Settled lines settled aligned earliest) :
    (settled.place lines indent aligned earliest).Run lines ∧
      group.SameKept lines (settled.place lines indent aligned earliest) := by
  unfold Group.place
  split
  · rename_i destination hdest
    have hle : earliest ≤ destination := by
      unfold Group.destination at hdest
      split_ifs at hdest
      · exact (h.aligned destination hdest).1
      · cases hdest
        exact le_boundary
    obtain ⟨hrun, hkept⟩ := h.maximal.toRun.rotateUpTo h.slid hle
    exact ⟨hrun, hkept.trans h.kept⟩
  · exact ⟨h.maximal.toRun, h.kept⟩

lemma maximal_at {cursor rank : Nat} (hlen : changed.length = lines.len)
    (hrank : rank = (changed.take cursor).count false)
    (hset : changed[cursor]? = some true) (hst : 0 < cursor → changed[cursor - 1]? = some false) :
    (Group.at changed cursor rank hset).Maximal lines := by
  obtain ⟨hrun, hend⟩ := groupEnd_spec changed cursor
  exact ⟨⟨hrun, hend, hrank, hlen⟩, hst⟩

lemma compactFrom_spec {cursor rank : Nat}
    (hlen : changed.length = lines.len) (hbounds : bnds.length = changed.count false + 1)
    (hrank : rank = (changed.take cursor).count false)
    (hst : changed[cursor]? = some true → 0 < cursor → changed[cursor - 1]? = some false) :
    ∃ changed', compactFrom lines bnds indent changed cursor rank = .ok changed' ∧
      changed'.length = lines.len ∧ kept lines.pieces changed' = kept lines.pieces changed := by
  fun_induction compactFrom lines bnds indent changed cursor rank with
  | case1 changed cursor rank hend => exact ⟨changed, rfl, hlen, rfl⟩
  | case2 changed cursor rank hfree ih =>
    refine ih hlen hbounds ?_ fun _ _ => hfree
    rw [take_succ_count hfree, hrank]
    rfl
  | case3 changed cursor rank hset err herr =>
    have hmax := maximal_at hlen hrank hset (hst hset)
    obtain ⟨settled, aligned, earliest, hsettle, -⟩ := hmax.settle hbounds
    rw [herr] at hsettle
    cases hsettle
  | case4 changed cursor rank hset settled aligned earliest hsettle placed ih =>
    have hmax := maximal_at hlen hrank hset (hst hset)
    obtain ⟨settled', aligned', earliest', hset', hsett⟩ := hmax.settle hbounds
    rw [hsettle] at hset'
    cases hset'
    obtain ⟨hrun, hkept⟩ : placed.Run lines ∧ (Group.at changed cursor rank hset).SameKept lines placed :=
      hsett.place
    have hnum : placed.changed.count false = changed.count false := hkept.count hlen hrun.length
    obtain ⟨changed', hcom, hlen', hrest⟩ := ih hrun.length (by rw [hnum]; exact hbounds)
      (by rw [hrun.rank, count_take_run (le_of_lt placed.nonempty) hrun.all]) fun hmore =>
      absurd hmore hrun.after
    exact ⟨changed', hcom, hlen', hrest.trans hkept⟩

lemma length_changedBoundaries (changed : List Bool) :
    (changedBoundaries changed).length = changed.count false + 1 := by
  have hfold : ∀ (changed bnds : List Bool), bnds ≠ [] →
      (changed.foldl (fun bnds flag => if flag then bnds.dropLast ++ [true] else bnds ++ [false])
        bnds).length = bnds.length + changed.count false := by
    intro changed
    induction changed with
    | nil => intro bnds _; simp
    | cons flag changed ih =>
      intro bnds hne
      have hpos := length_pos_of_ne_nil hne
      rw [foldl_cons]
      cases flag with
      | false | true =>
        rw [ih _ (by simp)]
        simp
        omega
  rw [changedBoundaries, hfold changed [false] (by simp)]
  simp [Nat.add_comm]

lemma compact_spec {changed opposite : List Bool} {indent : Bool}
    (hlen : changed.length = lines.len) (hnum : opposite.count false = changed.count false) :
    ∃ changed', compact lines changed opposite indent = .ok changed' ∧ changed'.length = lines.len ∧
      kept lines.pieces changed' = kept lines.pieces changed :=
  compactFrom_spec hlen (by rw [length_changedBoundaries, hnum]) (by simp) fun _ h =>
    absurd h (lt_irrefl 0)

end Move

section Sides

variable {old new : Lines} {rem added : List Bool} {x y : Nat}
variable {flags : List Bool} {ranges : List Range} {edits : List ContentEdit}
variable {count : Nat}

def keptFrom (lines : Lines) (flags : List Bool) (x : Nat) : List Bytes := kept (lines.pieces.drop x) (flags.drop x)

lemma keptFrom_step {lines : Lines} {flag : Bool} (hflag : flags[x]? = some flag) (hx : x < lines.len) :
    keptFrom lines flags x = if flag then keptFrom lines flags (x + 1) else lines.line x :: keptFrom lines flags (x + 1) := by
  obtain ⟨hlt, hval⟩ := List.getElem?_eq_some_iff.mp hflag
  have hline : lines.pieces[x]? = some (lines.line x) := by rw [Lines.getElem?_pieces, if_pos hx]
  obtain ⟨hlt', hval'⟩ := List.getElem?_eq_some_iff.mp hline
  rw [keptFrom, List.drop_eq_getElem_cons hlt', List.drop_eq_getElem_cons hlt, hval, hval', kept]
  rfl

lemma keptFrom_end (lines : Lines) (flags : List Bool) : keptFrom lines flags lines.len = [] := by
  rw [keptFrom, drop_eq_nil_of_le (by rw [Lines.length_pieces])]
  cases flags.drop lines.len <;> rfl

lemma keptFrom_run {lines : Lines} {stop : Nat} (hle : x ≤ stop) (hstop : stop ≤ lines.len)
    (hrun : ∀ k, x ≤ k → k < stop → flags[k]? = some true) :
    keptFrom lines flags x = keptFrom lines flags stop := by
  induction stop, hle using Nat.le_induction with
  | base => rfl
  | succ stop hle ih =>
    rw [ih (by omega) fun k hk hk' => hrun k hk (by omega),
      keptFrom_step (hrun stop hle (by omega)) (by omega)]
    rfl

lemma keptFrom_diagonal {len : Nat} (hkeep : Diagonal old.pieces new.pieces x y len)
    (hold : ∀ k, x ≤ k → k < x + len → rem[k]? = some false)
    (hnew : ∀ k, y ≤ k → k < y + len → added[k]? = some false) :
    ∃ lines : List Bytes, lines.length = len ∧
      keptFrom old rem x = lines ++ keptFrom old rem (x + len) ∧
      keptFrom new added y = lines ++ keptFrom new added (y + len) := by
  induction len with
  | zero => exact ⟨[], rfl, rfl, rfl⟩
  | succ len ih =>
    obtain ⟨lines, hlen, hx, hy⟩ := ih (fun j hj => hkeep j (by omega))
      (fun k hk hk' => hold k hk (by omega))
      fun k hk hk' => hnew k hk (by omega)
    obtain ⟨hxlt, hylt, hline⟩ := match_iff.mp (hkeep len (by omega))
    refine ⟨lines ++ [old.line (x + len)], by simp [hlen], ?_, ?_⟩
    · rw [hx, keptFrom_step (hold (x + len) (by omega) (by omega)) hxlt]
      simp [Nat.add_assoc]
    · rw [hy, keptFrom_step (hnew (y + len) (by omega) (by omega)) hylt, hline]
      simp [Nat.add_assoc]

/-- From a position on, the changed lines are those of some ranges. -/
def Marks (flags : List Bool) (count x : Nat) (ranges : List Range) : Prop :=
  ∀ k, x ≤ k → k < count → flags[k]? = some (ranges.any fun range => range.start ≤ k && k < range.stop)

lemma Marks.tail {range : Range} (h : Marks flags count x (range :: ranges)) (hx : x ≤ range.stop) :
    Marks flags count range.stop ranges := by
  intro k hk hk'
  rw [h k (by omega) hk', any_cons]
  have hout : (decide (range.start ≤ k) && decide (k < range.stop)) = false := by
    simp only [Bool.and_eq_false_iff, decide_eq_false_iff_not]
    exact .inr (by omega)
  rw [hout, Bool.false_or]

lemma Marks.free {stop : Nat} (h : Marks flags count x ranges)
    (hstop : stop ≤ count) (hstarts : ∀ range ∈ ranges, stop ≤ range.start) :
    ∀ k, x ≤ k → k < stop → flags[k]? = some false := by
  intro k hk hk'
  rw [h k hk (by omega), Option.some.injEq, any_eq_false]
  intro range hrg
  have := hstarts range hrg
  simp only [Bool.and_eq_true, decide_eq_true_eq]
  omega

lemma Marks.run {range : Range} (h : Marks flags count x (range :: ranges)) (hx : x ≤ range.start)
    (hstop : range.stop ≤ count) :
    ∀ k, range.start ≤ k → k < range.stop → flags[k]? = some true := by
  intro k hk hk'
  rw [h k (by omega) (by omega), any_cons]
  simp [hk, hk']

lemma Aligned.le (h : Aligned old new x y edits) : x ≤ old.len ∧ y ≤ new.len := by
  induction h with
  | nil _ hx hy | cons _ hx hy hle hle' _ ih => omega

lemma Aligned.starts (h : Aligned old new x y edits) :
    ∀ e ∈ edits, x ≤ e.oldLines.start ∧ y ≤ e.newLines.start := by
  induction h with
  | nil => simp
  | @cons x y len olds news rest _ hx hy hle hle' _ ih =>
    intro e he
    rcases mem_cons.mp he with rfl | he
    · simp only [edit]
      omega
    · have := ih e he
      omega

/-- Edits that account for all lines: both sides retain the same, and the edited lines are the rest. -/
lemma Aligned.kept {edits : List ContentEdit} (h : Aligned old new x y edits)
    (hold : Marks rem old.len x (edits.map oldLines))
    (hnew : Marks added new.len y (edits.map newLines)) :
    keptFrom old rem x = keptFrom new added y ∧
      editedLines edits + 2 * (keptFrom old rem x).length = (old.len - x) + (new.len - y) := by
  induction h with
  | @nil x y length hkeep hx hy =>
    obtain ⟨lines, hlen, hkep, hother⟩ := keptFrom_diagonal hkeep
      (fun k hk hk' => hold k hk (by omega)) fun k hk hk' => hnew k hk (by omega)
    rw [hx, keptFrom_end, append_nil] at hkep
    rw [hy, keptFrom_end, append_nil] at hother
    rw [hkep, hother, hlen]
    refine ⟨rfl, ?_⟩
    simp only [editedLines, map_nil, sum_nil]
    omega
  | @cons x y length olds news rest hkeep hx hy hle hle' hrest ih =>
    obtain ⟨hendX, hendY⟩ := hrest.le
    have hsta : ∀ range ∈ olds :: rest.map oldLines, x + length ≤ range.start :=
      forall_mem_cons.mpr ⟨hx.ge, forall_mem_map.mpr fun e he => by have := (hrest.starts e he).1; omega⟩
    have hnexts : ∀ range ∈ news :: rest.map newLines, y + length ≤ range.start :=
      forall_mem_cons.mpr ⟨hy.ge, forall_mem_map.mpr fun e he => by have := (hrest.starts e he).2; omega⟩
    have hrunX : keptFrom old rem (x + length) = keptFrom old rem olds.stop := by
      rw [← hx]
      exact keptFrom_run hle hendX (hold.run (by simp only [edit]; omega) hendX)
    have hrunY : keptFrom new added (y + length) = keptFrom new added news.stop := by
      rw [← hy]
      exact keptFrom_run hle' hendY (hnew.run (by simp only [edit]; omega) hendY)
    obtain ⟨hsame, htot⟩ := ih (hold.tail (by simp only [edit]; omega))
      (hnew.tail (by simp only [edit]; omega))
    obtain ⟨lines, hlen, hkep, hother⟩ := keptFrom_diagonal hkeep (hold.free (by omega) hsta)
      (hnew.free (by omega) hnexts)
    rw [hkep, hother, hrunX, hrunY, hsame, length_append, hlen]
    refine ⟨rfl, ?_⟩
    rw [hsame] at htot
    simp only [editedLines, edit, Range.length, map_cons, sum_cons] at htot ⊢
    omega

lemma getElem?_foldl_fill (ranges : List Range) (flags : List Bool) (k : Nat) :
    (ranges.foldl fill flags)[k]? =
      (flags[k]?).map fun flag => flag || ranges.any fun range => range.start ≤ k && k < range.stop := by
  induction ranges generalizing flags with
  | nil => simp
  | cons range ranges ih =>
    rw [foldl_cons, ih, fill, getElem?_mapIdx, Option.map_map]
    refine congrArg (Option.map · flags[k]?) (funext fun flag => ?_)
    simp [Bool.or_assoc]

lemma changed_marks (count : Nat) (ranges : List Range) :
    Marks (changed count ranges) count 0 ranges := by
  intro k _ hk
  rw [changed, getElem?_foldl_fill, getElem?_replicate_of_lt hk]
  simp

lemma length_changed (count : Nat) (ranges : List Range) :
    (changed count ranges).length = count := by
  have hfold : ∀ (ranges : List Range) (flags : List Bool), (ranges.foldl fill flags).length =
      flags.length := by
    intro ranges
    induction ranges with
    | nil => intro flags; rfl
    | cons range ranges ih => intro flags; rw [foldl_cons, ih, fill, length_mapIdx]
  rw [changed, hfold, length_replicate]

/-- Each edit ends before the next begins, and none is empty. -/
structure Separated (edits : List ContentEdit) : Prop where
  ordered : edits.Pairwise fun e e' => e.oldLines.stop < e'.oldLines.start ∧ e.newLines.stop < e'.newLines.start
  nonempty : ∀ e ∈ edits, e.oldLines.start < e.oldLines.stop ∨ e.newLines.start < e.newLines.stop

lemma collect_starts (old new : Lines) (rem added : List Bool) (x y : Nat) :
    ∀ e ∈ collect old new rem added x y, x ≤ e.oldLines.start ∧ y ≤ e.newLines.start := by
  fun_induction collect old new rem added x y with
  | case1 x y _ endX endY _ ih =>
    intro e he
    have hx : x ≤ endX := le_groupEnd rem x
    have hy : y ≤ endY := le_groupEnd added y
    rcases mem_cons.mp he with rfl | he
    · exact ⟨le_refl _, le_refl _⟩
    · have := ih e he
      omega
  | case2 x y _ endX endY _ ih =>
    intro e he
    have := ih e he
    omega
  | case3 => simp

lemma collect_after (hx : rem[x]? ≠ some true) (hy : added[y]? ≠ some true) :
    ∀ e ∈ collect old new rem added x y, x < e.oldLines.start ∧ y < e.newLines.start := by
  rw [collect]
  split_ifs with hmore
  · have hsta : groupEnd rem x = x := by rw [groupEnd, if_neg hx]
    have hsty : groupEnd added y = y := by rw [groupEnd, if_neg hy]
    simp only [hsta, hsty, ne_eq, not_true_eq_false, or_self, if_false]
    exact collect_starts old new rem added (x + 1) (y + 1)
  · simp

lemma collect_separated (old new : Lines) (rem added : List Bool) (x y : Nat) :
    Separated (collect old new rem added x y) := by
  fun_induction collect old new rem added x y with
  | case1 x y _ endX endY hmv ih =>
    have hx : x ≤ endX := le_groupEnd rem x
    have hy : y ≤ endY := le_groupEnd added y
    refine ⟨pairwise_cons.mpr ⟨fun e he => ?_, ih.ordered⟩, fun e he => ?_⟩
    · exact collect_after (groupEnd_spec rem x).2 (groupEnd_spec added y).2 e he
    rcases mem_cons.mp he with rfl | he
    · simp only [edit]
      omega
    · exact ih.nonempty e he
  | case2 x y _ endX endY _ ih => exact ih
  | case3 => exact ⟨List.Pairwise.nil, by simp⟩

/-- Sides that retain the same lines are read off in step, and the edited lines are the rest. -/
lemma collect_aligned (hrem : rem.length = old.len) (hadd : added.length = new.len)
    (hx : x ≤ old.len) (hy : y ≤ new.len) (hkept : keptFrom old rem x = keptFrom new added y) :
    Aligned old new x y (collect old new rem added x y) ∧
      editedLines (collect old new rem added x y) + 2 * (keptFrom old rem x).length =
      (old.len - x) + (new.len - y) := by
  fun_induction collect old new rem added x y with
  | case1 x y _ endX endY _ ih =>
    have hendX : endX ≤ old.len := hrem ▸ groupEnd_le rem (by omega)
    have hendY : endY ≤ new.len := hadd ▸ groupEnd_le added (by omega)
    have hrunX : _ = keptFrom old rem endX := keptFrom_run (le_groupEnd rem x) hendX (groupEnd_spec rem x).1
    have hrunY := keptFrom_run (le_groupEnd added y) hendY (groupEnd_spec added y).1
    have hx' : x ≤ endX := le_groupEnd rem x
    have hy' : y ≤ endY := le_groupEnd added y
    obtain ⟨hrest, htot⟩ := ih hendX hendY (by rw [← hrunX, ← hrunY, hkept])
    refine ⟨.cons (diagonal_zero _ _ _ _) rfl rfl hx' hy' hrest, ?_⟩
    rw [hrunX]
    simp only [editedLines, edit, Range.length, map_cons, sum_cons] at htot ⊢
    omega
  | case2 x y hmore endX endY hstay ih =>
    rw [not_or, not_not, not_not] at hstay
    have hfre := free_of_groupEnd hstay.1
    have hfrY := free_of_groupEnd hstay.2
    -- a side that retains a line forces the other to retain it too
    have hboth : x < old.len ∧ y < new.len := by
      by_cases hxlt : x < old.len
      · by_contra hylt
        obtain rfl : y = new.len := by omega
        rw [keptFrom_end, keptFrom_step (getElem?_false (by omega) hfre) hxlt] at hkept
        cases hkept
      · obtain rfl : x = old.len := by omega
        have hylt : y < new.len := by omega
        rw [keptFrom_end, keptFrom_step (getElem?_false (by omega) hfrY) hylt] at hkept
        cases hkept
    rw [keptFrom_step (getElem?_false (by omega) hfre) hboth.1,
      keptFrom_step (getElem?_false (by omega) hfrY) hboth.2] at hkept
    obtain ⟨hline, htail⟩ := cons.inj hkept
    obtain ⟨hrest, htot⟩ := ih (by omega) (by omega) htail
    refine ⟨hrest.extend fun j hj => ?_, ?_⟩
    · obtain rfl : j = 0 := by omega
      exact match_iff.mpr ⟨hboth.1, hboth.2, hline⟩
    · rw [keptFrom_step (getElem?_false (by omega) hfre) hboth.1, if_neg Bool.false_ne_true, length_cons]
      omega
  | case3 x y hend =>
    obtain rfl : x = old.len := by omega
    refine ⟨.nil (diagonal_zero _ _ _ _) rfl (by omega), ?_⟩
    rw [keptFrom_end, show y = new.len by omega]
    simp [editedLines]

/-- Placement gives edits that account for all lines, in order, with as many edited lines. -/
lemma compactEdits_spec (indent : Bool) (h : Aligned old new 0 0 edits)
    (hsome : 0 < old.len ∨ 0 < new.len) : ∃ edits', compactEdits old new edits indent = .ok edits' ∧
      Aligned old new 0 0 edits' ∧ Separated edits' ∧ editedLines edits' = editedLines edits := by
  unfold compactEdits
  split_ifs with hwho
  · refine ⟨edits, rfl, h, ?_, rfl⟩
    obtain ⟨e, rfl, hold⟩ := map_eq_singleton_iff.mp hwho.1
    have hnew : e.newLines = ⟨0, new.len⟩ := by simpa using hwho.2
    refine ⟨pairwise_singleton _ _, fun e' he' => ?_⟩
    rw [mem_singleton.mp he', hold, hnew]
    exact hsome
  · have hmar := changed_marks old.len (edits.map oldLines)
    have hmar' := changed_marks new.len (edits.map newLines)
    have hlen := length_changed old.len (edits.map oldLines)
    have hlen' := length_changed new.len (edits.map newLines)
    generalize changed old.len (edits.map oldLines) = rem at hmar hlen ⊢
    generalize changed new.len (edits.map newLines) = added at hmar' hlen' ⊢
    obtain ⟨hsame, htot⟩ := h.kept hmar hmar'
    simp only [keptFrom, drop_zero] at hsame htot
    -- both sides retain equally many lines, so the boundaries of each have their ranks on the other
    obtain ⟨rem', hcom, hrem, hkept⟩ := @compact_spec old rem added indent
      hlen (by rw [← count_kept hlen, ← count_kept hlen', hsame])
    obtain ⟨added', hcom', hadd, hkept'⟩ := @compact_spec new added rem' indent
      hlen' (by rw [← count_kept hrem, ← count_kept hlen', hkept, hsame])
    obtain ⟨hali, htot'⟩ := @collect_aligned old new rem' added' 0 0 hrem hadd (Nat.zero_le _)
      (Nat.zero_le _)
      (by simp only [keptFrom, drop_zero]; rw [hkept, hkept', hsame])
    refine ⟨collect old new rem' added' 0 0, bind_ok.mpr ⟨rem', hcom,
      bind_ok.mpr ⟨added', hcom', rfl⟩⟩, hali,
      collect_separated _ _ _ _ _ _, ?_⟩
    simp only [keptFrom, drop_zero, hkept] at htot'
    omega

end Sides

end Girt.ContentDiff
