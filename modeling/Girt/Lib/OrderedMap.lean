import Mathlib.Data.List.Pairwise
import Mathlib.Data.List.Lookmap
import Mathlib.Order.Basic
import Mathlib.Order.Defs.LinearOrder
import Mathlib.Tactic.Common
import Girt.Lib.Bytes

/-!
# Ordered maps

A finite map as a list of entries strictly increasing in their keys, so that two maps with the
same lookups are equal and iteration is in key order.
-/

namespace OrderedMap

open List

variable {κ ν : Type} [LinearOrder κ] {l : List (κ × ν)}

def insertEntry (k : κ) (v : ν) : List (κ × ν) → List (κ × ν)
  | [] => [(k, v)]
  | e :: rest =>
    if k < e.1 then (k, v) :: e :: rest
    else if k = e.1 then (k, v) :: rest
    else e :: insertEntry k v rest

def lookup (k : κ) : List (κ × ν) → Option ν
  | [] => none
  | e :: rest => if k = e.1 then some e.2 else lookup k rest

abbrev Sorted (l : List (κ × ν)) : Prop := l.Pairwise (fun a b => a.1 < b.1)

lemma lookup_insertEntry (k k' : κ) (v : ν) (l : List (κ × ν)) :
    lookup k' (insertEntry k v l) = if k' = k then some v else lookup k' l := by
  induction l with
  | nil => simp [insertEntry, lookup]
  | cons e rest ih =>
    rw [insertEntry]
    split
    · simp [lookup]
    split
    · rename_i h
      subst h
      by_cases hk : k' = e.1 <;> simp [lookup, hk]
    rename_i h
    by_cases hk : k' = e.1
    · simp [lookup, hk, Ne.symm h]
    · simp [lookup, hk, ih]

lemma mem_insertEntry {k : κ} {v : ν} {e : κ × ν}
    (h : e ∈ insertEntry k v l) : e = (k, v) ∨ e ∈ l := by
  induction l with
  | nil => simpa [insertEntry] using h
  | cons head rest ih =>
    rw [insertEntry] at h
    split_ifs at h with h1 h2
    · simpa using h
    · rcases mem_cons.mp h with h | h
      · exact Or.inl h
      · exact Or.inr (.tail _ h)
    · rcases mem_cons.mp h with h | h
      · exact Or.inr (h ▸ (.head _))
      · exact (ih h).imp id (mem_cons_of_mem _)

lemma sorted_insertEntry (k : κ) (v : ν) (h : Sorted l) : Sorted (insertEntry k v l) := by
  induction l with
  | nil => simp [insertEntry]
  | cons e rest ih =>
    have hrest : Sorted rest := List.Pairwise.of_cons h
    have hlt : ∀ x ∈ rest, e.1 < x.1 := fun x hx => rel_of_pairwise_cons h hx
    rw [insertEntry]
    split_ifs with h1 h2
    · refine List.Pairwise.cons ?_ h
      intro x hx
      rcases mem_cons.mp hx with rfl | hx
      · exact h1
      · exact h1.trans (hlt x hx)
    · refine List.Pairwise.cons ?_ hrest
      intro x hx
      exact h2 ▸ hlt x hx
    · refine List.Pairwise.cons ?_ (ih hrest)
      intro x hx
      rcases mem_insertEntry hx with rfl | hx
      · exact lt_of_le_of_ne (not_lt.mp h1) (Ne.symm h2)
      · exact hlt x hx

lemma lookup_eq_some_of_mem (h : Sorted l) {k : κ} {v : ν} (hm : (k, v) ∈ l) :
    lookup k l = some v := by
  induction l with
  | nil => cases hm
  | cons e rest ih =>
    rcases mem_cons.mp hm with rfl | hm
    · simp [lookup]
    · have hlt : e.1 < k := rel_of_pairwise_cons h hm
      rw [lookup, if_neg hlt.ne', ih (List.Pairwise.of_cons h) hm]

lemma mem_of_lookup_eq_some {k : κ} {v : ν} (h : lookup k l = some v) : (k, v) ∈ l := by
  induction l with
  | nil => cases h
  | cons e rest ih =>
    rw [lookup] at h
    split at h
    · rename_i hk
      cases h
      subst hk
      exact .head _
    · exact .tail _ (ih h)

/-- No key is given two values. -/
def Functional (l : List (κ × ν)) : Prop := ∀ e ∈ l, ∀ e' ∈ l, e.1 = e'.1 → e.2 = e'.2

lemma Sorted.functional (h : Sorted l) : Functional l := by
  intro e he e' he' heq
  have h₁ : lookup e.1 l = some e.2 := lookup_eq_some_of_mem h he
  have h₂ : lookup e.1 l = some e'.2 := by
    rw [heq]
    exact lookup_eq_some_of_mem h he'
  exact Option.some.inj (h₁.symm.trans h₂)

lemma eq_of_lookup_eq {l₁ l₂ : List (κ × ν)} (h₁ : Sorted l₁) (h₂ : Sorted l₂)
    (h : ∀ k, lookup k l₁ = lookup k l₂) : l₁ = l₂ := by
  have hnd : ∀ {l : List (κ × ν)}, Sorted l → l.Nodup :=
    fun hl => hl.imp (fun {a b} (hab : a.1 < b.1) => by
      rintro rfl
      exact lt_irrefl _ hab)
  have hperm : l₁.Perm l₂ := by
    rw [perm_ext_iff_of_nodup (hnd h₁) (hnd h₂)]
    intro e
    constructor
    · intro he
      exact mem_of_lookup_eq_some ((h e.1).symm.trans (lookup_eq_some_of_mem h₁ he))
    · intro he
      exact mem_of_lookup_eq_some ((h e.1).trans (lookup_eq_some_of_mem h₂ he))
  exact hperm.eq_of_pairwise (fun a b _ _ hab hba => absurd hab (not_lt.mpr hba.le)) h₁ h₂

end OrderedMap

@[ext] structure OrdMap (κ ν : Type) [LinearOrder κ] where
  entries : List (κ × ν)
  sorted : OrderedMap.Sorted entries

namespace OrdMap

open OrderedMap

variable {κ ν : Type} [LinearOrder κ] {k : κ} {m : OrdMap κ ν} {v : ν} {l : List (κ × ν)}

def empty : OrdMap κ ν := ⟨[], List.Pairwise.nil⟩

def insert (m : OrdMap κ ν) (k : κ) (v : ν) : OrdMap κ ν :=
  ⟨insertEntry k v m.entries, sorted_insertEntry k v m.sorted⟩

def get (m : OrdMap κ ν) (k : κ) : Option ν := lookup k m.entries

def contains (m : OrdMap κ ν) (k : κ) : Bool := (m.get k).isSome

def values (m : OrdMap κ ν) : List ν := m.entries.map Prod.snd

def rangeFrom (m : OrdMap κ ν) (k : κ) : List (κ × ν) := m.entries.filter (fun e => k ≤ e.1)

def insertAll (m : OrdMap κ ν) (l : List (κ × ν)) : OrdMap κ ν :=
  l.foldl (fun m e => m.insert e.1 e.2) m

@[simp] lemma get_empty (k : κ) : (empty : OrdMap κ ν).get k = none := rfl

lemma get_insert (m : OrdMap κ ν) (k k' : κ) (v : ν) :
    (m.insert k v).get k' = if k' = k then some v else m.get k' :=
  lookup_insertEntry k k' v m.entries

@[simp] lemma get_insert_self (m : OrdMap κ ν) (k : κ) (v : ν) : (m.insert k v).get k = some v := by
  simp [get_insert]

lemma contains_insert (m : OrdMap κ ν) (k k' : κ) (v : ν) :
    (m.insert k v).contains k' ↔ m.contains k' ∨ k' = k := by
  rw [contains, get_insert, contains]
  split_ifs with hk <;> simp [hk]

lemma get_insert_of_ne (m : OrdMap κ ν) {k' : κ} (h : k' ≠ k) (v : ν) :
    (m.insert k v).get k' = m.get k' := by
  simp [get_insert, h]

lemma forall_insert {P : κ → ν → Prop} (hm : ∀ k v, m.get k = some v → P k v) (h : P k v) :
    ∀ k' v', (m.insert k v).get k' = some v' → P k' v' := by
  intro k' v' hget
  rw [get_insert] at hget
  split_ifs at hget with hk
  · cases hget
    exact hk ▸ h
  · exact hm k' v' hget

lemma mem_entries : (k, v) ∈ m.entries ↔ m.get k = some v :=
  ⟨lookup_eq_some_of_mem m.sorted, mem_of_lookup_eq_some⟩

lemma ext_get {m₁ m₂ : OrdMap κ ν} (h : ∀ k, m₁.get k = m₂.get k) : m₁ = m₂ := by
  ext1
  exact eq_of_lookup_eq m₁.sorted m₂.sorted h

lemma insert_of_get (h : m.get k = some v) : m.insert k v = m := by
  refine ext_get fun k' => ?_
  rw [get_insert]
  split_ifs with hk
  · rw [hk, h]
  · rfl

lemma mem_rangeFrom {k' : κ} : (k', v) ∈ m.rangeFrom k ↔ k ≤ k' ∧ m.get k' = some v := by
  simp [rangeFrom, mem_entries, and_comm]

lemma head_rangeFrom_le {k' k'' : κ} {v' : ν} {rest : List (κ × ν)}
    (h : m.rangeFrom k = (k', v) :: rest) (hk : k ≤ k'') (hv : m.get k'' = some v') : k' ≤ k'' := by
  have hsort : Sorted (m.rangeFrom k) := m.sorted.filter _
  have hmem : (k'', v') ∈ m.rangeFrom k := mem_rangeFrom.mpr ⟨hk, hv⟩
  rw [h] at hsort hmem
  rcases List.mem_cons.mp hmem with heq | hmem
  · exact (congrArg Prod.fst heq).ge
  · exact (List.rel_of_pairwise_cons hsort hmem).le

lemma get_insertAll_of_not_mem (m : OrdMap κ ν) (h : ∀ e ∈ l, e.1 ≠ k) :
    (m.insertAll l).get k = m.get k := by
  induction l generalizing m with
  | nil => rfl
  | cons e rest ih =>
    have hne : k ≠ e.1 := (h e List.mem_cons_self).symm
    change ((m.insert e.1 e.2).insertAll rest).get k = m.get k
    rw [ih _ (fun x hx => h x (List.mem_cons_of_mem _ hx)), get_insert_of_ne _ hne]

lemma contains_insertAll : (m.insertAll l).contains k ↔ k ∈ l.map Prod.fst ∨ m.contains k := by
  induction l generalizing m with
  | nil => simp [insertAll]
  | cons e l ih =>
    have hcons : m.insertAll (e :: l) = (m.insert e.1 e.2).insertAll l := rfl
    rw [hcons, ih, contains_insert, List.map_cons, List.mem_cons]
    tauto

lemma contains_iff : m.contains k ↔ k ∈ m.entries.map Prod.fst := by
  rw [contains, Option.isSome_iff_exists, List.mem_map]
  constructor
  · rintro ⟨v, hv⟩
    exact ⟨(k, v), mem_entries.mpr hv, rfl⟩
  · rintro ⟨e, he, rfl⟩
    exact ⟨e.2, mem_entries.mp he⟩

lemma mem_or_of_get_insertAll (h : (m.insertAll l).get k = some v) :
    (k, v) ∈ l ∨ m.get k = some v := by
  induction l generalizing m with
  | nil => exact Or.inr h
  | cons e l ih =>
    rcases @ih (m.insert e.1 e.2) h with hmem | hget
    · exact Or.inl (List.mem_cons_of_mem _ hmem)
    rw [get_insert] at hget
    split_ifs at hget with hk
    · cases hget
      exact Or.inl (hk ▸ List.mem_cons_self)
    · exact Or.inr hget

lemma get_insertAll_of_mem (m : OrdMap κ ν) (hl : Functional l) (h : (k, v) ∈ l) :
    (m.insertAll l).get k = some v := by
  induction l generalizing m with
  | nil => cases h
  | cons e rest ih =>
    change ((m.insert e.1 e.2).insertAll rest).get k = some v
    have hrest : Functional rest := fun a ha b hb =>
      hl a (List.mem_cons_of_mem _ ha) b (List.mem_cons_of_mem _ hb)
    by_cases hmem : (k, v) ∈ rest
    · exact ih _ hrest hmem
    have he : e = (k, v) := ((List.mem_cons.mp h).resolve_right hmem).symm
    rw [get_insertAll_of_not_mem, he, get_insert_self]
    rintro ⟨k', v'⟩ he' rfl
    have hv : v' = v := hl _ (List.mem_cons_of_mem _ he') _ h rfl
    exact hmem (hv ▸ he')

lemma get_insertAll_eq_some (m : OrdMap κ ν) (hl : Functional l) :
    (m.insertAll l).get k = some v ↔ (k, v) ∈ l ∨ ((∀ e ∈ l, e.1 ≠ k) ∧ m.get k = some v) := by
  by_cases hk : ∃ w, (k, w) ∈ l
  · obtain ⟨w, hw⟩ := hk
    rw [get_insertAll_of_mem m hl hw, Option.some.injEq]
    constructor
    · rintro rfl
      exact Or.inl hw
    · rintro (hv | ⟨hne, -⟩)
      · exact hl _ hw _ hv rfl
      · exact absurd rfl (hne _ hw)
  · have hne : ∀ e ∈ l, e.1 ≠ k := by
      rintro ⟨k', w⟩ he rfl
      exact hk ⟨w, he⟩
    rw [get_insertAll_of_not_mem m hne]
    constructor
    · exact fun h => Or.inr ⟨hne, h⟩
    · rintro (hv | ⟨-, hv⟩)
      · exact absurd ⟨v, hv⟩ hk
      · exact hv

lemma insertAll_congr (m : OrdMap κ ν) {l₁ l₂ : List (κ × ν)} (hl : Functional l₁)
    (h : ∀ e, e ∈ l₁ ↔ e ∈ l₂) : m.insertAll l₁ = m.insertAll l₂ := by
  have hl₂ : Functional l₂ := fun a ha b hb => hl a ((h a).mpr ha) b ((h b).mpr hb)
  apply ext_get
  intro k
  apply Option.ext
  intro v
  rw [get_insertAll_eq_some m hl, get_insertAll_eq_some m hl₂, h]
  simp only [h]

lemma entries_insertAll_empty (hl : Sorted l) : ((empty : OrdMap κ ν).insertAll l).entries = l := by
  refine eq_of_lookup_eq (OrdMap.sorted _) hl (fun k => ?_)
  apply Option.ext
  intro v
  have h := get_insertAll_eq_some (empty : OrdMap κ ν) hl.functional (k := k) (v := v)
  have hmem : (k, v) ∈ l ↔ lookup k l = some v := ⟨lookup_eq_some_of_mem hl, mem_of_lookup_eq_some⟩
  have hget : ((empty : OrdMap κ ν).insertAll l).get k = some v ↔ lookup k l = some v := by
    simpa [hmem] using h
  exact hget

section Keyed

variable {key : ν → κ}

/-- Every value is stored under its own key. -/
def Keyed (key : ν → κ) (m : OrdMap κ ν) : Prop := ∀ e ∈ m.entries, e.1 = key e.2

lemma keyed_empty : Keyed key (empty : OrdMap κ ν) := by
  intro e he
  cases he

lemma Keyed.insert {m : OrdMap κ ν} (h : Keyed key m) (v : ν) : Keyed key (m.insert (key v) v) := by
  intro e he
  rcases mem_insertEntry he with rfl | he
  · rfl
  · exact h e he

lemma Keyed.insertAll (h : Keyed key m) (l : List ν) :
    Keyed key (m.insertAll (l.map (fun v => (key v, v)))) := by
  induction l generalizing m with
  | nil => exact h
  | cons v l ih => exact ih (h.insert v)

lemma Keyed.values_map (h : Keyed key m) : m.values.map (fun v => (key v, v)) = m.entries := by
  have hen : ∀ e ∈ m.entries, (key e.2, e.2) = e := by
    intro e he
    rw [← h e he]
  calc m.values.map (fun v => (key v, v)) = m.entries.map (fun e => (key e.2, e.2)) := by
        simp [values]
    _ = m.entries := by
        rw [List.map_congr_left hen, List.map_id']

lemma Keyed.sorted_values (h : Keyed key m) (p : ν → Bool) :
    Sorted ((m.values.filter p).map (fun v => (key v, v))) := by
  have hsub : ((m.values.filter p).map (fun v => (key v, v))).Sublist m.entries := by
    rw [← h.values_map]
    exact (List.filter_sublist).map _
  exact m.sorted.sublist hsub

lemma Keyed.get_key (h : Keyed key m) (hv : m.get k = some v) : key v = k :=
  (h _ (mem_entries.mpr hv)).symm

lemma Keyed.mem_values (h : Keyed key m) : v ∈ m.values ↔ m.get (key v) = some v := by
  constructor
  · intro hv
    obtain ⟨⟨k, w⟩, he, rfl⟩ := List.mem_map.mp hv
    rw [← h _ he]
    exact mem_entries.mp he
  · intro hv
    exact List.mem_map.mpr ⟨_, mem_entries.mpr hv, rfl⟩

lemma Keyed.find_values (h : Keyed key m) {p q : ν → Bool}
    (hq : ∀ v, q v ↔ key v = k ∧ p v) : m.values.find? q = (m.get k).filter p := by
  apply Option.ext
  intro v
  constructor
  · intro hv
    have hp := (hq v).mp (List.find?_some hv)
    have hmem := List.mem_of_find?_eq_some hv
    rw [h.mem_values, hp.1] at hmem
    simp [hmem, hp.2]
  · intro hv
    obtain ⟨hget, hp⟩ := Option.filter_eq_some_iff.mp hv
    have hkey : key v = k := h.get_key hget
    cases hfind : m.values.find? q with
    | none =>
      have hno := List.find?_eq_none.mp hfind v (h.mem_values.mpr (by rw [hkey]; exact hget))
      exact absurd ((hq v).mpr ⟨hkey, hp⟩) hno
    | some w =>
      have hw := (hq w).mp (List.find?_some hfind)
      have hmem := h.mem_values.mp (List.mem_of_find?_eq_some hfind)
      rw [hw.1, hget] at hmem
      exact hmem.symm

end Keyed

section Fresh

variable {ε α : Type} {key : α → κ} {f : OrdMap κ ν → α → Except ε (OrdMap κ ν)}

lemma foldlM_fresh (step : ∀ m a m', f m a = .ok m' → m.get (key a) = none ∧ ∃ v, m' = m.insert (key a) v)
    {l : List α} {m' : OrdMap κ ν} (h : l.foldlM f m = .ok m') :
    (∀ a ∈ l, m.get (key a) = none) ∧ ∀ k, m'.get k = none ↔ m.get k = none ∧ ∀ a ∈ l, key a ≠ k := by
  induction l generalizing m with
  | nil =>
    cases h
    simp
  | cons a l ih =>
    rw [List.foldlM_cons, ByteLib.bind_ok] at h
    obtain ⟨next, hnext, h⟩ := h
    obtain ⟨hnone, v, rfl⟩ := step _ _ _ hnext
    obtain ⟨hrest, hiff⟩ := ih h
    constructor
    · intro b hb
      rcases List.mem_cons.mp hb with rfl | hb
      · exact hnone
      have hget := hrest b hb
      rw [get_insert] at hget
      split_ifs at hget
      exact hget
    · intro k
      rw [hiff, get_insert, List.forall_mem_cons]
      by_cases hk : k = key a
      · simp [hk]
      · have hk' : key a ≠ k := fun heq => hk heq.symm
        rw [if_neg hk]
        simp [hk']

end Fresh

end OrdMap
