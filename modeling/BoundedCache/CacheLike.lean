import BoundedCache.AccessMap
import Std.Data.TreeMap

/-!
# Anything that can serve as a cache

A cache tells how many entries it holds, and looks a key up, stores a value under it and removes
it. A lookup may change the cache, since it counts as a use. Finite maps are caches that never
drop an entry.
-/

namespace BoundedCache

/-- The operations of a cache. -/
class CacheLike (γ : Type) (κ ν : outParam Type) where
  size : γ → Nat
  /-- The value of a key. -/
  get : γ → κ → Checked (γ × Option ν)
  /-- Stores a value under a key and hands out the value it replaces. -/
  put : γ → κ → ν → Checked (γ × Option ν)
  /-- Removes a key and hands out its value. -/
  remove : γ → κ → Checked (γ × Option ν)

variable {κ ν : Type}

instance [BEq κ] [Hashable κ] : CacheLike (AccessMap κ ν) κ ν where
  size := AccessMap.size
  get := AccessMap.get
  put := AccessMap.put
  remove := AccessMap.remove

/-! ## Finite maps -/

/-- A hash map keeps the spelling under which a key came first. -/
instance [BEq κ] [Hashable κ] : CacheLike (Std.HashMap κ ν) κ ν where
  size map := map.size
  get map key := return (map, map[key]?)
  put map key value := do
    let old := map[key]?
    let stored := map.getKeyD key key
    return (map.insert stored value, old)
  remove map key := do
    let old := map[key]?
    return (map.erase key, old)

/-- A tree map keeps the spelling under which a key came first. -/
instance {order : κ → κ → Ordering} : CacheLike (Std.TreeMap κ ν order) κ ν where
  size map := map.size
  get map key := return (map, map[key]?)
  put map key value := do
    let old := map[key]?
    let stored := map.getKeyD key key
    return (map.insert stored value, old)
  remove map key := do
    let old := map[key]?
    return (map.erase key, old)

/-! ## Caches backed by a map -/

/-- A cache that is nothing but the map behind it. -/
structure MapBacked (μ : Type) where
  map : μ

instance {μ : Type} [CacheLike μ κ ν] : CacheLike (MapBacked μ) κ ν where
  size cache := CacheLike.size cache.map
  get cache key := do
    let (map, value) ← CacheLike.get cache.map key
    return (⟨map⟩, value)
  put cache key value := do
    let (map, old) ← CacheLike.put cache.map key value
    return (⟨map⟩, old)
  remove cache key := do
    let (map, old) ← CacheLike.remove cache.map key
    return (⟨map⟩, old)

/-- A cache backed by a map that is held exclusively during each operation. -/
structure LockedMap (μ : Type) where
  guarded : μ

namespace LockedMap

variable {μ : Type}

/-- Runs one operation on the whole map while it is held. -/
def withLock {β : Type} (cache : LockedMap μ) (operation : μ → Checked (μ × β)) :
    Checked (LockedMap μ × β) := do
  let (guarded, answer) ← operation cache.guarded
  return (⟨guarded⟩, answer)

end LockedMap

instance {μ : Type} [CacheLike μ κ ν] : CacheLike (LockedMap μ) κ ν where
  size cache := CacheLike.size cache.guarded
  get cache key := cache.withLock fun map => CacheLike.get map key
  put cache key value := cache.withLock fun map => CacheLike.put map key value
  remove cache key := cache.withLock fun map => CacheLike.remove map key

end BoundedCache
