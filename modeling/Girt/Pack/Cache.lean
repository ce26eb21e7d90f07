import Girt.Object

/-!
# The shared cache of delta bases

Decoded pack entries are kept by scope and offset. Every shard has a lock of its own, so one operation
on a shard is one step. A hash map is the list of its entries, in no order that anything depends on.
-/

namespace Girt.Pack
open ByteLib

/-- What decoding an entry cost a read's limits. -/
structure Cost where
  depth : Nat
  input : Nat
  decode : Nat

/-- What a payload was checked against when it was decoded. -/
structure Proof where
  identity : Option ObjectId
  crc : Bool

def Proof.merge (proof other : Proof) : Proof := ⟨proof.identity.or other.identity, proof.crc || other.crc⟩

structure Cached where
  kind : ObjectKind
  data : Bytes
  proof : Proof
  cost : Cost

/-- The scope and the offset of an entry. -/
abbrev CacheKey := Nat × Nat

structure CacheInner where
  entries : List (CacheKey × Cached)
  order : List CacheKey
  bytes : Nat

namespace CacheInner

def payload (entry : CacheKey × Cached) : Nat := entry.2.data.length

def get (inner : CacheInner) (key : CacheKey) : Option Cached := inner.entries.lookup key

/-- `HashMap::remove` of one key or `HashMap::retain`, where the bytes of what goes are given back. -/
def retain (inner : CacheInner) (p : CacheKey → Bool) : CacheInner :=
  { inner with
    entries := inner.entries.filter (p ·.1)
    bytes := inner.bytes - ((inner.entries.filter (!p ·.1)).map payload).sum }

/-- `HashMap::get_mut`, to replace the proof of an entry. -/
def amend (inner : CacheInner) (key : CacheKey) (f : Proof → Proof) : CacheInner :=
  { inner with
    entries := inner.entries.map fun entry =>
      if entry.1 = key then (entry.1, { entry.2 with proof := f entry.2.proof }) else entry }

def evictFrom (limit size : Nat) : List CacheKey → CacheInner → CacheInner
  | [], inner => inner
  | oldest :: rest, inner =>
    if limit < inner.bytes + size then evictFrom limit size rest { inner.retain (· != oldest) with order := rest }
    else inner

/-- The loop that pops the oldest entries until the payload fits. -/
def evict (limit size : Nat) (inner : CacheInner) : CacheInner := evictFrom limit size inner.order inner

def push (inner : CacheInner) (key : CacheKey) (cached : Cached) : CacheInner where
  entries := (key, cached) :: inner.entries.filter (·.1 != key)
  order := inner.order ++ [key]
  bytes := inner.bytes + cached.data.length

def insertShared (limit : Nat) (inner : CacheInner) (key : CacheKey) (cached : Cached) : CacheInner :=
  if (inner.get key).isSome then inner.amend key (·.merge cached.proof)
  else (inner.evict limit cached.data.length).push key cached

/-- What dropping a reader does to one shard. -/
def release (inner : CacheInner) (scope : Nat) : CacheInner :=
  { inner.retain (·.1 != scope) with order := inner.order.filter (·.1 != scope) }

end CacheInner

structure BaseCache where
  shards : List CacheInner
  shardLimit : Nat

namespace BaseCache

def sharded (shards shardLimit : Nat) : BaseCache := ⟨List.replicate shards ⟨[], [], 0⟩, shardLimit⟩

/-- The cache that the readers of a process share. -/
def new : BaseCache := sharded 8 (96 * 1024 * 1024 / 8)

def maxPayload (cache : BaseCache) : Nat := min (cache.shardLimit * cache.shards.length / 8) cache.shardLimit

def shard (cache : BaseCache) (offset : Nat) : Nat :=
  ((offset * 0x9e3779b97f4a7c15) % 2 ^ 64) >>> 32 % cache.shards.length

def onShard (cache : BaseCache) (index : Nat) (f : CacheInner → CacheInner) : BaseCache :=
  { cache with shards := cache.shards.modify index f }

def get (cache : BaseCache) (scope offset : Nat) : Option Cached :=
  cache.shards[cache.shard offset]?.bind (·.get (scope, offset))

def insertShared (cache : BaseCache) (scope offset : Nat) (cached : Cached) : BaseCache :=
  if cache.maxPayload < cached.data.length then cache
  else cache.onShard (cache.shard offset) (·.insertShared cache.shardLimit (scope, offset) cached)

def markVerified (cache : BaseCache) (scope offset : Nat) (id : ObjectId) : BaseCache :=
  cache.onShard (cache.shard offset) (·.amend (scope, offset) ({ · with identity := some id }))

def drop (cache : BaseCache) (scope : Nat) : BaseCache :=
  { cache with shards := cache.shards.map (·.release scope) }

inductive Operation where
  | insertShared (scope offset : Nat) (cached : Cached)
  | get (scope offset : Nat)
  | markVerified (scope offset : Nat) (id : ObjectId)
  | drop (scope : Nat)

def step (cache : BaseCache) : Operation → BaseCache
  | .insertShared scope offset cached => cache.insertShared scope offset cached
  | .get _ _ => cache
  | .markVerified scope offset id => cache.markVerified scope offset id
  | .drop scope => cache.drop scope

end BaseCache

end Girt.Pack
