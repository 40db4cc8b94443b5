import BoundedCache.AccessMap
import BoundedCache.Clock.Cache
import BoundedCache.Proofs.Checked
import BoundedCache.Round.Cache

/-!
# Requests to a cache

All caches serve the same requests, and a plain map answers them as well. Where a cache drops
entries on its own account, the plain map follows by deleting the keys that were evicted.
-/

namespace BoundedCache

/-! ## Requests and answers -/

/-- What can be asked of a cache. -/
inductive CacheRequest (κ ν : Type) where
  | get (key : κ)
  | put (key : κ) (value : ν)
  | remove (key : κ)
  | contains (key : κ)
  | size
  | clear

/-- Whether the request drops all entries. -/
def CacheRequest.clears {κ ν : Type} : CacheRequest κ ν → Bool
  | .clear => true
  | _ => false

/-- What a cache answers. -/
inductive CacheAnswer (ν : Type) where
  /-- The value found, replaced or removed. -/
  | value (value : Option ν)
  | held (isHeld : Bool)
  | count (size : Nat)
  | cleared
deriving DecidableEq

/-- An answer with the keys that were evicted on the way. -/
structure CacheOutcome (κ ν : Type) where
  answer : CacheAnswer ν
  evicted : List κ := []

variable {κ ν : Type} [BEq κ] [Hashable κ]

/-! ## Plain maps -/

namespace PlainMap

/-- What a plain map answers. -/
def answer (map : Std.HashMap κ ν) : CacheRequest κ ν → CacheAnswer ν
  | .get key => .value map[key]?
  | .put key _ => .value map[key]?
  | .remove key => .value map[key]?
  | .contains key => .held (map.contains key)
  | .size => .count map.size
  | .clear => .cleared

/-- What becomes of a plain map. -/
def next (map : Std.HashMap κ ν) : CacheRequest κ ν → Std.HashMap κ ν
  | .get _ => map
  | .put key value => map.insert key value
  | .remove key => map.erase key
  | .contains _ => map
  | .size => map
  | .clear => ∅

/-- Whether the request puts a key that the map does not hold. -/
def adds (map : Std.HashMap κ ν) : CacheRequest κ ν → Bool
  | .put key _ => !map.contains key
  | _ => false

/-- The plain map after a request from which the evicted keys are deleted. -/
def follow (map : Std.HashMap κ ν) (request : CacheRequest κ ν) (outcome : CacheOutcome κ ν) :
    Std.HashMap κ ν :=
  outcome.evicted.foldl Std.HashMap.erase (next map request)

/-- The plain map after a history, each evicted key being deleted when it is evicted. -/
def replay (map : Std.HashMap κ ν) :
    List (CacheRequest κ ν) → List (CacheOutcome κ ν) → Std.HashMap κ ν
  | request :: requests, outcome :: outcomes =>
      replay (follow map request outcome) requests outcomes
  | _, _ => map

end PlainMap

/-! ## Clock caches -/

/-- Serves a request and tells which keys it evicted. -/
def ClockCache.serve (cache : ClockCache κ ν) :
    CacheRequest κ ν → Checked (ClockCache κ ν × CacheOutcome κ ν)
  | .get key => do
      let (cache, value) ← cache.get key
      return (cache, { answer := .value value })
  | .put key value => do
      let (cache, result) ← cache.put key value
      return (cache, { answer := .value result.previous, evicted := result.evictedKeys })
  | .remove key => do
      let (cache, value) ← cache.remove key
      return (cache, { answer := .value value })
  | .contains key => do
      let isHeld ← cache.contains key
      return (cache, { answer := .held isHeld })
  | .size => return (cache, { answer := .count cache.size })
  | .clear => return (cache.clear, { answer := .cleared })

/-! ## Round caches -/

/-- Serves a request and tells which keys it evicted. -/
def RoundCache.serve (cache : RoundCache κ ν) :
    CacheRequest κ ν → Checked (RoundCache κ ν × CacheOutcome κ ν)
  | .get key => do
      let (cache, value) ← cache.get key
      return (cache, { answer := .value value })
  | .put key value => do
      let (cache, result) ← cache.put key value
      return (cache, { answer := .value result.previous, evicted := result.evictedKeys })
  | .remove key => do
      let (cache, value) ← cache.remove key
      return (cache, { answer := .value value })
  | .contains key => do
      let isHeld ← cache.contains key
      return (cache, { answer := .held isHeld })
  | .size => return (cache, { answer := .count cache.size })
  | .clear => return (cache.clear, { answer := .cleared })

/-! ## Access maps -/

/-- Serves a request. The map does not tell which key it dropped to make room. -/
def AccessMap.serve (map : AccessMap κ ν) :
    CacheRequest κ ν → Checked (AccessMap κ ν × CacheAnswer ν)
  | .get key => do
      let (map, value) ← map.get key
      return (map, .value value)
  | .put key value => do
      let (map, old) ← map.put key value
      return (map, .value old)
  | .remove key => do
      let (map, value) ← map.remove key
      return (map, .value value)
  | .contains key => return (map, .held (map.contains key))
  | .size => return (map, .count map.size)
  | .clear => return (map.clear, .cleared)

end BoundedCache
