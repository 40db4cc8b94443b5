import BoundedCache.CacheLike
import BoundedCache.Clock.Geometry
import BoundedCache.Clock.Sweep

/-!
# Clock caches

A clock cache spreads its entries over many clock tables, its shards, and bounds their number
together. A new key that takes the cache over its limit makes the shards sweep in turn, from where
the last eviction left off, until one of them gives up an entry.
-/

namespace BoundedCache

open Clock

/-- A cache of many clock tables under one limit. -/
structure ClockCache (κ ν : Type) where
  geometry : Geometry
  shards : Array (Table κ ν)
  /-- The most entries the cache holds. -/
  limit : Nat
  /-- The number of entries of all shards together. -/
  size : Nat
  /-- How many shards were asked for a victim so far; the next one is asked in turn. -/
  cursor : Nat

namespace ClockCache

variable {κ ν : Type}

/-! ## Building -/

/-- The cache without entries, if its limit can be served. -/
def ofLimit (limit concurrency : Nat) : Except SizingError (ClockCache κ ν) := do
  let geometry ← Geometry.ofLimit limit concurrency
  let shard ← Table.ofBuckets geometry.buckets
  return ⟨geometry, Array.replicate geometry.shards shard, limit, 0, 0⟩

/-- The cache that the settings ask for. -/
def ofSettings (settings : ClockSettings) : Except SizingError (ClockCache κ ν) :=
  ofLimit settings.limit settings.concurrency

/-- What the log tells about a new cache. -/
def creationMessage (cache : ClockCache κ ν) : Message :=
  ⟨.debug, "created segmented LFU cache: max_size=" ++ toString cache.limit ++
    ", segments=" ++ toString cache.geometry.shards ++
    ", buckets_per_segment=" ++ toString cache.geometry.buckets⟩

/-! ## Reading -/

def isEmpty (cache : ClockCache κ ν) : Bool :=
  cache.size == 0

def shardCount (cache : ClockCache κ ν) : Nat :=
  cache.shards.size

/-- The counters of all shards, added up. -/
def counters (cache : ClockCache κ ν) : ClockCounters :=
  cache.shards.foldl (fun total shard => total + shard.counters) {}

/-- Whether a key is held. This is no visit. -/
def contains [BEq κ] [Hashable κ] (cache : ClockCache κ ν) (key : κ) : Checked Bool := do
  let hash := HashCode.avalanched key
  let index := cache.geometry.shardOf hash
  match cache.shards[index]? with
  | none => throw (.outOfRange index cache.shards.size)
  | some shard => return (← shard.find hash key).isSome

/-! ## Running a step on one shard -/

/-- Takes a shard out of the array and leaves one without buckets in its place, so that the shard
can be changed where it is stored. -/
@[noinline] def takeShard (shards : Array (Table κ ν)) (index : Nat)
    (inBounds : index < shards.size) : Table κ ν × Array (Table κ ν) :=
  shards.swapAt index default inBounds

/-- Replaces the shard at a position by what `step` makes of it. -/
def onShard {β : Type} (shards : Array (Table κ ν)) (index : Nat)
    (step : Table κ ν → Checked (Table κ ν × β)) : Checked (Array (Table κ ν) × β) :=
  if inBounds : index < shards.size then do
    let (shard, rest) := takeShard shards index inBounds
    let (shard, answer) ← step shard
    return (rest.setIfInBounds index shard, answer)
  else throw (.outOfRange index shards.size)

/-- The step runs on the shard at the position, and its outcome is stored there. -/
theorem onShard_of_lt {β : Type} {shards : Array (Table κ ν)} {index : Nat}
    (inBounds : index < shards.size) (step : Table κ ν → Checked (Table κ ν × β)) :
    onShard shards index step =
      (step shards[index]).map fun outcome => (shards.set index outcome.1, outcome.2) := by
  simp only [onShard, inBounds, dif_pos, takeShard, Array.swapAt, bind, Except.bind]
  cases step shards[index] with
  | error fault => rfl
  | ok outcome => simp [Except.map, pure, Except.pure, Array.setIfInBounds, inBounds]

/-- The value of a key, which counts as one visit. -/
def get [BEq κ] [Hashable κ] (cache : ClockCache κ ν) (key : κ) :
    Checked (ClockCache κ ν × Option ν) := do
  let hash := HashCode.avalanched key
  let (shards, value) ←
    onShard cache.shards (cache.geometry.shardOf hash) fun shard => shard.get hash key
  return ({ cache with shards }, value)

/-- Removes a key and hands out its value. -/
def remove [BEq κ] [Hashable κ] (cache : ClockCache κ ν) (key : κ) :
    Checked (ClockCache κ ν × Option ν) := do
  let hash := HashCode.avalanched key
  let (shards, value) ←
    onShard cache.shards (cache.geometry.shardOf hash) fun shard => shard.remove hash key
  let size := if value.isSome then cache.size - 1 else cache.size
  return ({ cache with shards, size }, value)

/-- The same cache without its entries; the counters and the cursor are kept. -/
def clear (cache : ClockCache κ ν) : ClockCache κ ν :=
  let held := cache.shards.foldl (fun total shard => total + shard.size) 0
  { cache with shards := cache.shards.map Table.clear, size := cache.size - held }

/-! ## Eviction -/

/-- The entry that was evicted, and how many sweeps it took. -/
structure Eviction (κ ν : Type) where
  victim : Entry κ ν
  sweeps : Nat

/-- What the log tells about an eviction. -/
def Eviction.messages (eviction : Eviction κ ν) : List Message :=
  [ eviction.victim.evictionMessage,
    ⟨.trace, "evicted 1 entries after " ++ toString eviction.sweeps ++ " sweeps"⟩ ]

/-- Lets the shard under the cursor sweep once and moves the cursor on. -/
def sweepNext (cache : ClockCache κ ν) : Checked (ClockCache κ ν × Option (Entry κ ν)) := do
  let (shards, victim) ←
    onShard cache.shards (cache.cursor &&& (cache.geometry.shards - 1)) Table.sweep
  let size := if victim.isSome then cache.size - 1 else cache.size
  return ({ cache with shards, size, cursor := cache.cursor + 1 }, victim)

/-- Lets shards sweep in turn until an entry is evicted or the cache is within its limit, at most
`fuel` times. The sweeps made before are counted in `sweeps`. -/
def evictWithin : Nat → Nat → ClockCache κ ν →
    Checked (ClockCache κ ν × Option (Eviction κ ν))
  | 0, _, cache => .ok (cache, none)
  | fuel + 1, sweeps, cache =>
      if cache.size ≤ cache.limit then .ok (cache, none)
      else do
        let (cache, victim) ← cache.sweepNext
        match victim with
        | some victim => return (cache, some ⟨victim, sweeps + 1⟩)
        | none => evictWithin fuel (sweeps + 1) cache

/-- A table whose lightest entry has `m` visits gives up an entry within `3 * m` sweeps, so no
eviction takes more sweeps than this. -/
def sweepBound (cache : ClockCache κ ν) : Nat :=
  cache.geometry.shards * (3 * maxVisits)

/-- Evicts an entry if the cache is over its limit. -/
def evict (cache : ClockCache κ ν) : Checked (ClockCache κ ν × Option (Eviction κ ν)) :=
  evictWithin cache.sweepBound 0 cache

/-! ## Storing -/

/-- What a put replaced and what it evicted. -/
structure PutResult (κ ν : Type) where
  previous : Option ν
  eviction : Option (Eviction κ ν)

/-- Stores a value under a key, which counts as one visit. A new key that takes the cache over
its limit evicts an entry. -/
def put [BEq κ] [Hashable κ] (cache : ClockCache κ ν) (key : κ) (value : ν) :
    Checked (ClockCache κ ν × PutResult κ ν) := do
  let hash := HashCode.avalanched key
  let (shards, previous) ←
    onShard cache.shards (cache.geometry.shardOf hash) fun shard => shard.put hash key value
  if previous.isSome then return ({ cache with shards }, ⟨previous, none⟩)
  let (cache, eviction) ← { cache with shards, size := cache.size + 1 }.evict
  return (cache, ⟨none, eviction⟩)

/-- What the log tells about a put. -/
def PutResult.messages (result : PutResult κ ν) : List Message :=
  match result.eviction with
  | none => []
  | some eviction => eviction.messages

/-- The keys a put evicted, as they are stored. -/
def PutResult.evictedKeys (result : PutResult κ ν) : List κ :=
  (result.eviction.map fun eviction => eviction.victim.key).toList

instance [BEq κ] [Hashable κ] : CacheLike (ClockCache κ ν) κ ν where
  size := ClockCache.size
  get := ClockCache.get
  put cache key value := do
    let (cache, result) ← cache.put key value
    return (cache, result.previous)
  remove := ClockCache.remove

/-! ## Text -/

def outline (cache : ClockCache κ ν) : Outline :=
  .record "SegmentLfuCache"
    [ ("max_size", .ofNat cache.limit),
      ("size", .ofNat cache.size),
      ("segment_count", .ofNat cache.shardCount) ]

end ClockCache

end BoundedCache
