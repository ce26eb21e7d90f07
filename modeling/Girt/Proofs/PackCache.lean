import Mathlib.Algebra.BigOperators.Group.List.Basic
import Mathlib.Data.List.Nodup
import Girt.Pack.Cache

/-!
# The map, the queue and the byte count of a cache shard agree

Eviction and the release of a scope both keep the entries of a set of keys, in the map and in the queue,
and give back the bytes of the others.
-/

namespace Girt.Pack
open List

variable {limit size : Nat} {inner : CacheInner} {key : CacheKey} {cached : Cached}

namespace CacheInner

/-- The queue has exactly the held keys, once each, and the count is that of the held bytes. -/
structure Kept (limit : Nat) (inner : CacheInner) : Prop where
  distinct : inner.order.Nodup
  listed : (inner.entries.map Prod.fst).Perm inner.order
  counted : inner.bytes = (inner.entries.map payload).sum
  bounded : inner.bytes ≤ limit

lemma Kept.retain (h : inner.Kept limit) (p : CacheKey → Bool) :
    ({ inner.retain p with order := inner.order.filter p } : CacheInner).Kept limit where
  distinct := h.distinct.filter p
  listed := by
    have hkeys := filter_map (f := Prod.fst) (p := p) (l := inner.entries)
    exact hkeys ▸ h.listed.filter p
  counted := by
    have hall := ((filter_append_perm (p ·.1) inner.entries).map payload).sum_eq
    rw [map_append, sum_append] at hall
    have hbytes := h.counted
    simp only [CacheInner.retain]
    omega
  bounded := (Nat.sub_le _ _).trans h.bounded

lemma Kept.mem_order (h : inner.Kept limit) :
    key ∈ inner.order ↔ ∃ cached, (key, cached) ∈ inner.entries := by
  rw [← h.listed.mem_iff]
  simp

lemma Kept.push (h : inner.Kept limit) (hkey : key ∉ inner.order)
    (hfits : inner.bytes + cached.data.length ≤ limit) :
    (inner.push key cached).Kept limit ∧
      (inner.push key cached).entries = (key, cached) :: inner.entries := by
  have hfilter : inner.entries.filter (·.1 != key) = inner.entries :=
    filter_eq_self.mpr fun entry hentry => by
      simpa using fun heq : entry.1 = key => hkey (h.mem_order.mpr ⟨entry.2, heq ▸ hentry⟩)
  refine ⟨⟨?_, ?_, ?_, hfits⟩, by rw [CacheInner.push, hfilter]⟩
  · exact h.distinct.append (nodup_singleton key) (disjoint_singleton.mpr hkey)
  · rw [CacheInner.push, hfilter, map_cons]
    exact (h.listed.cons key).trans (perm_append_singleton key inner.order).symm
  · rw [CacheInner.push, hfilter, map_cons, sum_cons, h.counted, Nat.add_comm]
    rfl

/-- The loop keeps the newest entries, as many as leave room. -/
lemma evictFrom_spec (hsize : size ≤ limit) : ∀ {order : List CacheKey} {inner : CacheInner},
    inner.Kept limit → inner.order = order → (evictFrom limit size order inner).Kept limit ∧
      (evictFrom limit size order inner).bytes + size ≤ limit ∧
      ∃ n, (evictFrom limit size order inner).order = order.drop n ∧
        (evictFrom limit size order inner).entries = inner.entries.filter (·.1 ∈ order.drop n) := by
  intro order
  induction order with
  | nil =>
    rintro ⟨entries, order, bytes⟩ h rfl
    have hnil : entries = [] := map_eq_nil_iff.mp h.listed.eq_nil
    have hbytes := h.counted
    subst hnil
    exact ⟨h, by simpa [evictFrom, hbytes] using hsize, 0, rfl, rfl⟩
  | cons oldest rest ih =>
    intro inner h horder
    rw [evictFrom]
    split_ifs with hfull
    · have hnodup := h.distinct
      rw [horder, nodup_cons] at hnodup
      have hrest : inner.order.filter (· != oldest) = rest := by
        rw [horder, filter_cons_of_neg (by simp)]
        exact filter_eq_self.mpr fun key hkey => bne_iff_ne.mpr fun heq => hnodup.1 (heq ▸ hkey)
      obtain ⟨hkept, hfits, n, hdrop, hentries⟩ := ih (hrest ▸ h.retain (· != oldest)) rfl
      refine ⟨hkept, hfits, n + 1, hdrop, ?_⟩
      rw [hentries, CacheInner.retain, filter_filter, drop_succ_cons]
      refine filter_congr fun entry _ => ?_
      have hne : entry.1 ∈ rest.drop n → entry.1 ≠ oldest :=
        fun hmem heq => hnodup.1 (heq ▸ mem_of_mem_drop hmem)
      simpa using hne
    · rw [← horder]
      refine ⟨h, Nat.le_of_not_lt hfull, 0, rfl, (filter_eq_self.mpr fun entry hentry => ?_).symm⟩
      exact decide_eq_true (h.mem_order.mpr ⟨entry.2, hentry⟩)

lemma Kept.amend (h : inner.Kept limit) (f : Proof → Proof) : (inner.amend key f).Kept limit := by
  have hkeys : (inner.amend key f).entries.map Prod.fst = inner.entries.map Prod.fst := by
    rw [CacheInner.amend, map_map]
    exact map_congr_left fun entry _ => (apply_ite Prod.fst _ _ _).trans (ite_self _)
  have hsizes : (inner.amend key f).entries.map payload = inner.entries.map payload := by
    rw [CacheInner.amend, map_map]
    exact map_congr_left fun entry _ => (apply_ite payload _ _ _).trans (ite_self _)
  exact ⟨h.distinct, hkeys ▸ h.listed, hsizes ▸ h.counted, h.bounded⟩

/-- An insertion replaces no payload, and it makes room by evicting the oldest entries. -/
lemma insertShared_spec (h : inner.Kept limit) (hsize : cached.data.length ≤ limit) :
    (inner.insertShared limit key cached).Kept limit ∧
      ((inner.insertShared limit key cached).order = inner.order ∨ ∃ n,
        (inner.insertShared limit key cached).order = inner.order.drop n ++ [key] ∧
        (inner.insertShared limit key cached).entries =
          (key, cached) :: inner.entries.filter (·.1 ∈ inner.order.drop n)) := by
  rw [insertShared]
  split_ifs with hheld
  · exact ⟨h.amend _, Or.inl rfl⟩
  obtain ⟨hkept, hfits, n, horder, hentries⟩ := evictFrom_spec hsize h rfl
  have hkey : key ∉ inner.order.drop n := fun hmem => by
    obtain ⟨other, hother⟩ := h.mem_order.mp (mem_of_mem_drop hmem)
    exact hheld (lookup_isSome_iff.mpr ⟨_, hother, by simp⟩)
  obtain ⟨hpush, hpushed⟩ := hkept.push (horder ▸ hkey) hfits
  exact ⟨hpush, Or.inr ⟨n, by rw [push, evict, horder], by rw [evict, hpushed, hentries]⟩⟩

end CacheInner

namespace BaseCache

open CacheInner

def Kept (limit : Nat) (cache : BaseCache) : Prop :=
  cache.shardLimit = limit ∧ ∀ inner ∈ cache.shards, inner.Kept limit

lemma Kept.onShard {cache : BaseCache} {f : CacheInner → CacheInner} (h : cache.Kept limit)
    (index : Nat) (hf : ∀ inner, inner.Kept limit → (f inner).Kept limit) :
    (cache.onShard index f).Kept limit := by
  refine ⟨h.1, fun inner hmem => ?_⟩
  obtain ⟨i, hi⟩ := mem_iff_getElem?.mp hmem
  rw [BaseCache.onShard, getElem?_modify] at hi
  obtain ⟨before, hbefore, rfl⟩ := Option.map_eq_some_iff.mp hi
  have hkept := h.2 before (mem_of_getElem? hbefore)
  split
  · exact hf before hkept
  · exact hkept

lemma Kept.step {cache : BaseCache} (h : cache.Kept limit) (op : Operation) :
    (cache.step op).Kept limit := by
  cases op with
  | insertShared scope offset cached =>
    rw [BaseCache.step, insertShared]
    split_ifs with hsize
    · exact h
    · refine h.onShard _ fun inner hinner => h.1 ▸ (insertShared_spec (h.1 ▸ hinner) ?_).1
      exact (Nat.le_of_not_lt hsize).trans (min_le_right _ _)
  | get scope offset => exact h
  | markVerified scope offset id => exact h.onShard _ fun inner hinner => hinner.amend _
  | drop scope =>
    refine ⟨h.1, fun inner hmem => ?_⟩
    obtain ⟨before, hbefore, rfl⟩ := mem_map.mp hmem
    exact (h.2 before hbefore).retain _

lemma sharded_kept (shards limit : Nat) : (sharded shards limit).Kept limit := by
  refine ⟨rfl, fun inner hinner => ?_⟩
  rw [(mem_replicate.mp hinner).2]
  exact ⟨nodup_nil, Perm.nil, rfl, Nat.zero_le _⟩

lemma run_kept (ops : List Operation) {cache : BaseCache} (h : cache.Kept limit) :
    (ops.foldl BaseCache.step cache).Kept limit := by
  induction ops generalizing cache with
  | nil => exact h
  | cons op rest ih => exact ih (h.step op)

/-- Whatever was inserted, looked up and dropped before, every shard has its bytes and its queue right.
An insertion evicts the oldest entries of one shard, and a drop removes the entries of its scope only. -/
theorem shards_kept (shards limit : Nat) (ops : List Operation) :
    let cache := ops.foldl BaseCache.step (sharded shards limit)
    (∀ inner ∈ cache.shards, inner.Kept limit) ∧
    (∀ scope offset cached (i : Nat) (inner : CacheInner), cache.shards[i]? = some inner → ∃ after : CacheInner,
      (cache.insertShared scope offset cached).shards[i]? = some after ∧
        (after.order = inner.order ∨ ∃ n, after.order = inner.order.drop n ++ [(scope, offset)] ∧
          after.entries = ((scope, offset), cached) :: inner.entries.filter (·.1 ∈ inner.order.drop n))) ∧
    ∀ scope (i : Nat), (cache.drop scope).shards[i]?.map entries =
      cache.shards[i]?.map fun inner => inner.entries.filter (·.1.1 != scope) := by
  intro cache
  have hkept := run_kept ops (sharded_kept shards limit)
  refine ⟨hkept.2, fun scope offset cached i inner hinner => ?_, fun scope i => ?_⟩
  · rw [insertShared]
    split_ifs with hsize
    · exact ⟨inner, hinner, Or.inl rfl⟩
    rw [onShard, getElem?_modify, hinner]
    refine ⟨_, rfl, ?_⟩
    generalize cache.shard offset = index
    split
    · have hsize' : cached.data.length ≤ limit :=
        (Nat.le_of_not_lt hsize).trans ((min_le_right _ _).trans hkept.1.le)
      rw [show cache.shardLimit = limit from hkept.1]
      exact (insertShared_spec (hkept.2 inner (mem_of_getElem? hinner)) hsize').2
    · exact Or.inl rfl
  · rw [drop, getElem?_map, Option.map_map]
    rfl

end BaseCache

end Girt.Pack
