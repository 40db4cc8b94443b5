import BoundedCache.Sizing

/-!
# Settings

What a caller asks of a cache before it is built. Whether a limit can be served is decided when
the cache is built.
-/

namespace BoundedCache

/-! ## Clock cache -/

/-- The number of shards wanted where none is given. -/
def usualConcurrency : Nat := 16

/-- Settings of a clock cache. -/
structure ClockSettings where
  /-- The most entries the cache holds. -/
  limit : Nat
  /-- How many shards are wanted at least. -/
  concurrency : Nat := usualConcurrency

def ClockSettings.outline (settings : ClockSettings) : Outline :=
  .record "SegmentLfuCacheConfig"
    [("max_size", .ofNat settings.limit), ("concurrency", .ofNat settings.concurrency)]

/-! ## Round cache -/

/-- Settings of a round cache. -/
structure RoundSettings where
  /-- The most entries the cache holds at rest. -/
  limit : Nat

def RoundSettings.outline (settings : RoundSettings) : Outline :=
  .record "ConcurrentLruCacheConfig" [("max_size", .ofNat settings.limit)]

/-! ## Access map -/

/-- Settings of an access map. -/
structure AccessSettings where
  /-- The most entries the map holds. -/
  capacity : Capacity

def AccessSettings.outline (settings : AccessSettings) : Outline :=
  .record "LruHashMapConfig" [("capacity", .ofNat settings.capacity.val)]

end BoundedCache
