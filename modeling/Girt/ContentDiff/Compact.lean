import Mathlib.Data.Int.Order.Basic
import Girt.ContentDiff.Myers

/-!
# Placement of edits

A group of changed lines can be moved over a neighbouring line that equals the line at its other end.
Groups are moved to meet other groups, then to a boundary that the other side changes too, else to one
that indentation prefers. The edits are then read off the changed lines of both sides.
-/

namespace Girt.ContentDiff
open ByteLib

section Indent

structure Score where
  indent : Int
  penalty : Int

def Score.preferredTo (score other : Score) : Bool :=
  7 * (score.indent - other.indent).sign + score.penalty - other.penalty ≤ 0

def maxColumn : Nat := 2 ^ 63 - 1

/-- The column at which the text of a line begins, if it has any. -/
def indentationFrom (column : Nat) : Bytes → Option Nat
  | [] => none
  | byte :: rest =>
    if byte = 32 then indentationFrom (min (column + 1) maxColumn) rest
    else if byte = 9 then indentationFrom (min (column + (8 - column % 8)) maxColumn) rest
    else if byte = 13 ∨ byte = 10 ∨ byte = 11 ∨ byte = 12 then indentationFrom column rest
    else some column

def indentation (line : Bytes) : Option Nat := indentationFrom 0 line

variable (lines : Lines)

/-- The nearest text before or after a position and the blank lines between, of which at most `left`
more are inspected. -/
def neighbour (backwards : Bool) : Nat → Nat → Nat → Option Nat × Nat
  | 0, _, blanks => (none, blanks)
  | left + 1, position, blanks =>
    if (if backwards then position = 0 else position = lines.len) then (none, blanks)
    else
      match indentation (lines.line (if backwards then position - 1 else position)) with
      | some indent => (some indent, blanks)
      | none => neighbour backwards left (if backwards then position - 1 else position + 1) (blanks + 1)

def splitScore (position : Nat) : Score :=
  let (before, above) := neighbour lines true 20 position 0
  let (after, below) := neighbour lines false 20 position 0
  let relation : Int :=
    match before, after with
    | _, none => 0
    | none, some _ => 1
    | some before, some after => if before < after then 0 else if after = before then 1 else 3
  { indent := match after with
      | some after => after
      | none => -1
    penalty := relation - 3 * min above 9 - 3 * min below 2 + if below > 0 then 1 else 0 }

def groupScore (start length : Nat) : Score :=
  let before := splitScore lines start
  let after := splitScore lines (start + length)
  ⟨before.indent + after.indent, before.penalty + after.penalty⟩

/-- Scans candidate boundaries forward; equal scores select the later one. -/
def boundaryFrom (length : Nat) : Nat → Nat → Nat → Score → Nat
  | 0, _, best, _ => best
  | left + 1, position, best, bestScore =>
    let score := groupScore lines position length
    if score.preferredTo bestScore then boundaryFrom length left (position + 1) position score
    else boundaryFrom length left (position + 1) best bestScore

def boundary (earliest last length : Nat) : Nat :=
  if earliest = last then last
  else
    let first := max earliest (last - min (length + 1) 100)
    boundaryFrom lines length (last - first) (first + 1) first (groupScore lines first length)

end Indent

section Groups

def fill (changed : List Bool) (range : Range) : List Bool :=
  changed.mapIdx fun i flag => flag || (range.start ≤ i && i < range.stop)

def changed (count : Nat) (ranges : List Range) : List Bool := ranges.foldl fill (List.replicate count false)

/-- Whether lines are changed between retained ones, by how many of those come before. -/
def changedBoundaries (changed : List Bool) : List Bool :=
  changed.foldl (fun boundaries flag => if flag then boundaries.dropLast ++ [true] else boundaries ++ [false]) [false]

def groupEnd (changed : List Bool) (stop : Nat) : Nat :=
  if changed[stop]? = some true then groupEnd changed (stop + 1) else stop
termination_by changed.length - stop
decreasing_by
  rename_i h
  have hlt := (List.getElem?_eq_some_iff.mp h).1
  omega

def groupStart (changed : List Bool) : Nat → Nat
  | 0 => 0
  | start + 1 => if changed[start]? = some true then groupStart changed start else start + 1

/-- A group of changed lines, and how many retained lines come before it. -/
structure Group where
  changed : List Bool
  start : Nat
  stop : Nat
  rank : Nat
  nonempty : start < stop
  bounded : stop ≤ changed.length

variable (group : Group)

namespace Group

def size (group : Group) : Nat := group.stop - group.start

def later (group : Group) : Nat := (group.changed.drop group.stop).count true

end Group

lemma le_groupEnd (changed : List Bool) (stop : Nat) : stop ≤ groupEnd changed stop := by
  fun_induction groupEnd changed stop with
  | case1 stop hset ih => omega
  | case2 stop hset => exact le_refl _

lemma lt_groupEnd {changed : List Bool} {stop : Nat} (h : changed[stop]? = some true) :
    stop < groupEnd changed stop := by
  rw [groupEnd, if_pos h]
  exact le_groupEnd changed (stop + 1)

lemma groupEnd_le (changed : List Bool) {stop : Nat} (h : stop ≤ changed.length) :
    groupEnd changed stop ≤ changed.length := by
  fun_induction groupEnd changed stop with
  | case1 stop hset ih => exact ih (List.getElem?_eq_some_iff.mp hset).1
  | case2 stop hset => exact h

lemma groupEnd_of_not_lt {changed : List Bool} {stop : Nat} (h : ¬ stop < changed.length) :
    groupEnd changed stop = stop := by
  rw [groupEnd, if_neg]
  rw [List.getElem?_eq_none (by omega)]
  simp

lemma groupStart_le (changed : List Bool) (start : Nat) : groupStart changed start ≤ start := by
  induction start with
  | zero => exact le_refl _
  | succ start ih =>
    rw [groupStart]
    split_ifs <;> omega

def Group.rotateUp (h : 0 < group.start) : Group where
  changed := (group.changed.set (group.stop - 1) false).set (group.start - 1) true
  start := group.start - 1
  stop := group.stop - 1
  rank := group.rank - 1
  nonempty := by have := group.nonempty; omega
  bounded := by
    have := group.bounded
    simp only [List.length_set]
    omega

/-- Takes in the group that ends where this one starts. -/
def Group.absorb : Group where
  changed := group.changed
  start := groupStart group.changed group.start
  stop := group.stop
  rank := group.rank
  nonempty := lt_of_le_of_lt (groupStart_le _ _) group.nonempty
  bounded := group.bounded

/-- Moves a group down over one line and takes in the group that follows. -/
def Group.rotateDown (h : group.stop < group.changed.length) : Group where
  changed := (group.changed.set group.start false).set group.stop true
  start := group.start + 1
  stop := groupEnd ((group.changed.set group.start false).set group.stop true) group.stop
  rank := group.rank + 1
  nonempty := Nat.lt_of_le_of_lt group.nonempty (lt_groupEnd (by simp [h]))
  bounded := groupEnd_le _ (by simp only [List.length_set]; omega)

lemma Group.lt_rotateDown_stop (h : group.stop < group.changed.length) :
    group.stop < (group.rotateDown h).stop :=
  lt_groupEnd (by simp [h])

variable (lines : Lines)

def Group.slideUp (group : Group) : Group :=
  if h : 0 < group.start ∧ lines.line (group.start - 1) = lines.line (group.stop - 1) then
    ((group.rotateUp h.1).absorb).slideUp
  else group
termination_by group.start
decreasing_by
  have hle := groupStart_le (group.rotateUp h.1).changed (group.start - 1)
  simp only [absorb, rotateUp] at hle ⊢
  omega

/-- Moves a group down as far as it goes; the result is the last start at which the other side has a
change too. -/
def Group.slideDown (boundaries : List Bool) (group : Group) (aligned : Option Nat) :
    Except DiffError (Group × Option Nat) :=
  match boundaries[group.rank]? with
  | none => .error .panic
  | some boundary =>
    let aligned := if boundary then some group.start else aligned
    if h : group.stop < group.changed.length ∧ lines.line group.start = lines.line group.stop then
      (group.rotateDown h.1).slideDown boundaries aligned
    else .ok (group, aligned)
termination_by group.changed.length - group.stop
decreasing_by
  have hlt := group.lt_rotateDown_stop h.1
  simp only [rotateDown, List.length_set] at hlt ⊢
  omega

lemma Group.rotateUp_later (h : 0 < group.start) : (group.rotateUp h).later = group.later := by
  have hnon := group.nonempty
  have hbou := group.bounded
  have hdrop : ((group.changed.set (group.stop - 1) false).set (group.start - 1) true).drop (group.stop - 1) =
      false :: group.changed.drop group.stop := by
    rw [List.drop_set_of_lt (by omega), List.drop_set, if_neg (lt_irrefl _), Nat.sub_self,
      List.drop_eq_getElem_cons (by omega), List.set_cons_zero]
    congr 2
    omega
  simp only [later, rotateUp, hdrop, List.count_cons_of_ne (by decide : false ≠ true)]

lemma count_drop_le (changed : List Bool) {i j : Nat} (h : i ≤ j) :
    (changed.drop j).count true ≤ (changed.drop i).count true :=
  (List.drop_sublist_drop_left changed h).count_le true

lemma Group.rotateDown_later (h : group.stop < group.changed.length) :
    (group.rotateDown h).later ≤ group.later := by
  have hnon := group.nonempty
  have hlt := group.lt_rotateDown_stop h
  have hdrop : (group.rotateDown h).changed.drop (group.rotateDown h).stop =
      group.changed.drop (group.rotateDown h).stop := by
    have hdiff : (group.rotateDown h).changed =
        (group.changed.set group.start false).set group.stop true := rfl
    rw [hdiff, List.drop_set_of_lt hlt, List.drop_set_of_lt (by omega)]
  rw [later, hdrop]
  exact count_drop_le _ (le_of_lt hlt)

/-- What moving a group keeps: the number of lines, at least its size, and at most what follows. -/
structure Group.Moved (group moved : Group) : Prop where
  length : moved.changed.length = group.changed.length
  size : group.size ≤ moved.size
  later : moved.later ≤ group.later

lemma Group.Moved.refl : group.Moved group := ⟨rfl, le_refl _, le_refl _⟩

lemma Group.Moved.trans {a b c : Group} (h : a.Moved b) (h' : b.Moved c) : a.Moved c :=
  ⟨h'.length.trans h.length, h.size.trans h'.size, h'.later.trans h.later⟩

lemma Group.moved_rotateUp (h : 0 < group.start) : group.Moved (group.rotateUp h) := by
  have hnon := group.nonempty
  refine ⟨by simp [rotateUp], ?_, le_of_eq (group.rotateUp_later h)⟩
  simp only [size, rotateUp]
  omega

lemma Group.moved_absorb : group.Moved group.absorb := by
  refine ⟨rfl, ?_, le_refl _⟩
  have hle := groupStart_le group.changed group.start
  simp only [size, absorb]
  omega

lemma Group.moved_rotateDown (h : group.stop < group.changed.length) :
    group.Moved (group.rotateDown h) := by
  refine ⟨by simp [rotateDown], ?_, group.rotateDown_later h⟩
  have hlt := group.lt_rotateDown_stop h
  simp only [size, rotateDown] at hlt ⊢
  omega

lemma Group.moved_slideUp : group.Moved (group.slideUp lines) := by
  fun_induction Group.slideUp lines group with
  | case1 group h ih => exact (group.moved_rotateUp h.1).trans ((Group.moved_absorb _).trans ih)
  | case2 group h => exact .refl group

lemma Group.moved_slideDown {boundaries : List Bool} {group moved : Group}
    {aligned aligned' : Option Nat}
    (h : group.slideDown lines boundaries aligned = .ok (moved, aligned')) : group.Moved moved := by
  fun_induction Group.slideDown lines boundaries group aligned with
  | case1 => cases h
  | case2 group aligned boundary _ aligned'' hdown ih =>
    exact (group.moved_rotateDown hdown.1).trans (ih h)
  | case3 group =>
    simp only [Except.ok.injEq, Prod.mk.injEq] at h
    rw [← h.1]
    exact .refl group

/-- Moves a group up and down until it meets no other group. The result holds the last start that is
aligned with the other side, and the earliest start. -/
def Group.settle (boundaries : List Bool) (group : Group) : Except DiffError (Group × Option Nat × Nat) :=
  let up := group.slideUp lines
  match _hdown : up.slideDown lines boundaries none with
  | .error error => .error error
  | .ok (down, aligned) =>
    if _hsize : down.size = group.size then .ok (down, aligned, up.start) else down.settle boundaries
termination_by group.changed.length - group.size
decreasing_by
  have hmoved := (group.moved_slideUp lines).trans (up.moved_slideDown lines _hdown)
  have hlength := hmoved.length
  have hsize := hmoved.size
  have hbounded := down.bounded
  have hdownSize : down.size ≤ down.changed.length := le_trans (Nat.sub_le _ _) hbounded
  omega

def Group.rotateUpTo (destination : Nat) (group : Group) : Group :=
  if h : destination < group.start then (group.rotateUp (Nat.zero_lt_of_lt h)).rotateUpTo destination else group
termination_by group.start
decreasing_by
  simp only [rotateUp]
  omega

/-- The start that is chosen for a settled group, if it moves at all. -/
def Group.destination (indentHeuristic : Bool) (group : Group) (aligned : Option Nat)
    (earliest : Nat) : Option Nat :=
  if aligned.isSome || ! indentHeuristic then aligned
  else some (boundary lines earliest group.start (group.stop - group.start))

def Group.place (indentHeuristic : Bool) (group : Group) (aligned : Option Nat) (earliest : Nat) : Group :=
  match group.destination lines indentHeuristic aligned earliest with
  | some destination => group.rotateUpTo destination
  | none => group

lemma Group.moved_rotateUpTo (destination : Nat) (group : Group) :
    group.Moved (group.rotateUpTo destination) := by
  fun_induction Group.rotateUpTo destination group with
  | case1 group h ih => exact (group.moved_rotateUp _).trans ih
  | case2 group h => exact .refl group

lemma Group.moved_place (indentHeuristic : Bool) (group : Group) (aligned : Option Nat)
    (earliest : Nat) : group.Moved (group.place lines indentHeuristic aligned earliest) := by
  unfold Group.place
  split
  · exact group.moved_rotateUpTo _
  · exact .refl group

lemma Group.moved_settle {boundaries : List Bool} {group settled : Group} {aligned : Option Nat}
    {earliest : Nat} (h : group.settle lines boundaries = .ok (settled, aligned, earliest)) :
    group.Moved settled := by
  fun_induction Group.settle lines boundaries group with
  | case1 => cases h
  | case2 group up down aligned' hdown hsize =>
    cases h
    exact (group.moved_slideUp lines).trans (Group.moved_slideDown lines hdown)
  | case3 group up down aligned' hdown hsize ih =>
    exact ((group.moved_slideUp lines).trans (Group.moved_slideDown lines hdown)).trans (ih h)

def Group.at (changed : List Bool) (cursor rank : Nat) (h : changed[cursor]? = some true) : Group where
  changed := changed
  start := cursor
  stop := groupEnd changed cursor
  rank := rank
  nonempty := lt_groupEnd h
  bounded := groupEnd_le _ (le_of_lt (List.getElem?_eq_some_iff.mp h).1)

lemma Group.later_at_lt {changed : List Bool} {cursor rank : Nat}
    (h : changed[cursor]? = some true) :
    (Group.at changed cursor rank h).later < (changed.drop cursor).count true := by
  obtain ⟨hlt, hval⟩ := List.getElem?_eq_some_iff.mp h
  have hstop := (Group.at changed cursor rank h).nonempty
  have hrest : (Group.at changed cursor rank h).later ≤ (changed.drop (cursor + 1)).count true :=
    count_drop_le _ hstop
  have hnum : (changed.drop cursor).count true = (changed.drop (cursor + 1)).count true + 1 := by
    rw [List.drop_eq_getElem_cons hlt, hval, List.count_cons_self]
  omega

def compactFrom (boundaries : List Bool) (indentHeuristic : Bool) (changed : List Bool) (cursor rank : Nat) :
    Except DiffError (List Bool) :=
  match hcursor : changed[cursor]? with
  | none => .ok changed
  | some false => compactFrom boundaries indentHeuristic changed (cursor + 1) (rank + 1)
  | some true =>
    match _hsettle : (Group.at changed cursor rank hcursor).settle lines boundaries with
    | .error error => .error error
    | .ok (settled, aligned, earliest) =>
      let placed := settled.place lines indentHeuristic aligned earliest
      compactFrom boundaries indentHeuristic placed.changed placed.stop placed.rank
termination_by ((changed.drop cursor).count true, changed.length - cursor)
decreasing_by
  · obtain ⟨hlt, hvalue⟩ := List.getElem?_eq_some_iff.mp hcursor
    have hcount : (changed.drop cursor).count true = (changed.drop (cursor + 1)).count true := by
      rw [List.drop_eq_getElem_cons hlt, hvalue, List.count_cons_of_ne (by decide)]
    rw [hcount]
    exact Prod.Lex.right _ (by omega)
  · have hlater := ((Group.moved_settle lines _hsettle).trans (Group.moved_place lines indentHeuristic settled aligned earliest)).later
    exact Prod.Lex.left _ _ (lt_of_le_of_lt hlater (Group.later_at_lt hcursor))

def compact (changed opposite : List Bool) (indentHeuristic : Bool) : Except DiffError (List Bool) :=
  compactFrom lines (changedBoundaries opposite) indentHeuristic changed 0 0

end Groups

section Diff

def collect (old new : Lines) (removed added : List Bool) (x y : Nat) : List ContentEdit :=
  if x < removed.length ∨ y < added.length then
    let endX := groupEnd removed x
    let endY := groupEnd added y
    if endX ≠ x ∨ endY ≠ y then edit old new ⟨x, endX⟩ ⟨y, endY⟩ :: collect old new removed added endX endY
    else collect old new removed added (x + 1) (y + 1)
  else []
termination_by (removed.length - x) + (added.length - y)
decreasing_by
  · rename_i hleft hmoved
    have hx := le_groupEnd removed x
    have hy := le_groupEnd added y
    by_cases hxlt : x < removed.length
    · by_cases hylt : y < added.length
      · omega
      · have hstay := groupEnd_of_not_lt hylt
        omega
    · have hstay := groupEnd_of_not_lt hxlt
      omega
  · omega

def compactEdits (old new : Lines) (edits : List ContentEdit) (indentHeuristic : Bool) :
    Except DiffError (List ContentEdit) :=
  if edits.map ContentEdit.oldLines = [⟨0, old.len⟩] ∧ edits.map ContentEdit.newLines = [⟨0, new.len⟩] then .ok edits
  else do
    let removed := changed old.len (edits.map ContentEdit.oldLines)
    let added := changed new.len (edits.map ContentEdit.newLines)
    let removed ← compact old removed added indentHeuristic
    let added ← compact new added removed indentHeuristic
    return collect old new removed added 0 0

inductive BinaryMode where
  | auto
  | text
  | binary
  deriving DecidableEq

structure Options where
  binary : BinaryMode
  indentHeuristic : Bool

inductive Outcome where
  | unchanged
  | binary
  | text (edits : List ContentEdit)

def Options.isBinary (options : Options) (old new : Bytes) : Bool :=
  match options.binary with
  | .auto => old.contains 0 || new.contains 0
  | .text => false
  | .binary => true

def diffWithOptions (old new : Bytes) (options : Options) (limits : DiffLimits) : Except DiffError Outcome := do
  reject (limits.maxInputBytes < old.length + new.length) (.limit .inputBytes)
  if old = new then return .unchanged
  else if options.isBinary old new then return .binary
  else
    let (oldLines, remaining) ← Lines.new old limits.maxLines
    let (newLines, _) ← Lines.new new remaining
    let edits ← myersEdits oldLines newLines limits.maxTrace
    let edits ← compactEdits oldLines newLines edits options.indentHeuristic
    return .text edits

def diff (old new : Bytes) (mode : BinaryMode) (limits : DiffLimits) : Except DiffError Outcome :=
  diffWithOptions old new ⟨mode, true⟩ limits

end Diff

end Girt.ContentDiff
