import BoundedCache.Sizing

/-!
# Geometry of a clock cache

The number of shards is a power of two between a lower and an upper bound. The upper bits of a
hash code choose the shard, the lower bits the bucket inside it. Each shard's table is sized so
that at its share of the limit three quarters of the buckets are filled.
-/

namespace BoundedCache.Clock

/-- The fewest shards of a cache. -/
def minShards : Nat := 16

/-- The most shards of a cache. -/
def maxShards : Nat := 1 <<< 14

/-- The fewest buckets of a shard. -/
def minBuckets : Nat := 1 <<< 7

/-- How a clock cache is divided. -/
structure Geometry where
  shards : Nat
  /-- How far a hash code is shifted to leave the bits that choose a shard. -/
  shift : Nat
  /-- The number of buckets in each shard. -/
  buckets : Nat
deriving DecidableEq

namespace Geometry

/-- The number of shards for a wanted concurrency. -/
def shardCount (concurrency : Nat) : Nat :=
  (min (max concurrency minShards) maxShards).nextPowerOfTwo

/-- The buckets each shard needs to hold its share of the limit. -/
def wantedBuckets (limit shards : Nat) : Nat :=
  limit / (shards * 3 / 4) + 1

/-- The division of a cache with this limit, unless it leaves a shard too few buckets. -/
def ofLimit (limit concurrency : Nat) : Except SizingError Geometry :=
  let shards := shardCount concurrency
  let wanted := wantedBuckets limit shards
  if wanted < minBuckets then .error (.capacityTooSmall limit (shards * minBuckets))
  else .ok ⟨shards, 32 - shards.log2, wanted.nextPowerOfTwo⟩

/-- The shard for a hash code. -/
def shardOf (geometry : Geometry) (hash : UInt32) : Nat :=
  (hash.toNat >>> geometry.shift) &&& (geometry.shards - 1)

end Geometry

end BoundedCache.Clock
