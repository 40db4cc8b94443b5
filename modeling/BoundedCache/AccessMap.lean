import BoundedCache.Counters
import BoundedCache.HandleList
import BoundedCache.Settings
import Std.Data.HashMap

/-!
# Access maps

An access map holds a bounded number of entries in the order of their last use, the most recent in
front. A new key that finds the map full takes the place of the entry at the back. The entries
stand in a handle list, and an index leads from each key to its handle.
-/

namespace BoundedCache

/-- A bounded map in the order of last use. -/
structure AccessMap (κ ν : Type) [BEq κ] [Hashable κ] where
  entries : HandleList (κ × ν)
  index : Std.HashMap κ Nat
  counters : AccessCounters

namespace AccessMap

variable {κ ν : Type} [BEq κ] [Hashable κ]

/-- The map without entries. -/
def empty (capacity : Capacity) : AccessMap κ ν :=
  ⟨.empty capacity, ∅, {}⟩

/-- The map that the settings ask for. -/
def ofSettings (settings : AccessSettings) : AccessMap κ ν :=
  empty settings.capacity

def capacity (map : AccessMap κ ν) : Capacity :=
  map.entries.capacity

def size (map : AccessMap κ ν) : Nat :=
  map.index.size

def isEmpty (map : AccessMap κ ν) : Bool :=
  map.index.isEmpty

/-! ## Reading without use -/

def contains (map : AccessMap κ ν) (key : κ) : Bool :=
  map.index.contains key

/-- The value of a key, whose place in the order is kept. -/
def peek (map : AccessMap κ ν) (key : κ) : Option ν :=
  map.index[key]?.bind fun handle => (map.entries.get? handle).map Prod.snd

/-- The entry that was not used for longest. -/
def oldest? (map : AccessMap κ ν) : Checked (Option (κ × ν)) :=
  map.entries.last?

/-- The entries, the one used last in front. -/
def toList (map : AccessMap κ ν) : Checked (List (κ × ν)) :=
  map.entries.toList

/-! ## Lookups -/

/-- Looks a key up. An entry that is found moves to the front, and its handle is told. -/
def use (map : AccessMap κ ν) (key : κ) : Checked (AccessMap κ ν × Option Nat) := do
  match map.index[key]? with
  | none => return ({ map with counters := ⟨map.counters.core.countMiss⟩ }, none)
  | some handle =>
      let entries ← map.entries.bringToFront handle
      return ({ map with entries, counters := ⟨map.counters.core.countHit⟩ }, some handle)

/-- The value of a key, which counts as used. -/
def get (map : AccessMap κ ν) (key : κ) : Checked (AccessMap κ ν × Option ν) := do
  let (map, found) ← map.use key
  return (map, found.bind fun handle => (map.entries.get? handle).map Prod.snd)

/-- Replaces the value of a key, which counts as used, and hands out the old value. The key keeps
its spelling; a key that is not held stays so. -/
def exchange (map : AccessMap κ ν) (key : κ) (value : ν) :
    Checked (AccessMap κ ν × Option ν) := do
  let (map, found) ← map.use key
  match found with
  | none => return (map, none)
  | some handle =>
      match map.entries.get? handle with
      | none => return (map, none)
      | some (stored, old) =>
          return ({ map with entries := (map.entries.replace handle (stored, value)).1 }, some old)

/-! ## Removal -/

/-- Removes a key and hands out its value. -/
def remove (map : AccessMap κ ν) (key : κ) : Checked (AccessMap κ ν × Option ν) := do
  match map.index[key]? with
  | none => return (map, none)
  | some handle =>
      let (entries, removed) ← map.entries.remove handle
      let map := { map with entries, index := map.index.erase key }
      return ({ map with counters := ⟨map.counters.core.countRemoval⟩ }, removed.map Prod.snd)

/-- Removes the entry that was not used for longest and hands it out. -/
def popOldest (map : AccessMap κ ν) : Checked (AccessMap κ ν × Option (κ × ν)) := do
  let (entries, removed) ← map.entries.popBack
  match removed with
  | none => return ({ map with entries }, none)
  | some (key, value) =>
      return ({ map with entries, index := map.index.erase key }, some (key, value))

/-- The same map without its entries; the counters are kept. -/
def clear (map : AccessMap κ ν) : AccessMap κ ν :=
  { map with entries := map.entries.clear, index := ∅ }

/-! ## Storing -/

/-- Drops the oldest entry if the map is full. -/
def makeRoom (map : AccessMap κ ν) : Checked (AccessMap κ ν) := do
  if map.entries.isFull then
    let (map, dropped) ← map.popOldest
    if dropped.isSome then
      return { map with counters := ⟨map.counters.core.countEviction⟩ }
    else return map
  else return map

/-- Adds an entry in front for a key that is not held. -/
def add (map : AccessMap κ ν) (key : κ) (value : ν) : Checked (AccessMap κ ν) := do
  let (entries, added) ← map.entries.add (key, value)
  match added with
  | none => return { map with entries }
  | some handle =>
      let map := { map with entries, index := map.index.insert key handle }
      return { map with counters := ⟨map.counters.core.countInsertion⟩ }

/-- Stores a value under a key, which counts as used, and hands out the value it replaces. The
key's new spelling replaces the old one. -/
def put (map : AccessMap κ ν) (key : κ) (value : ν) :
    Checked (AccessMap κ ν × Option ν) := do
  match map.index[key]? with
  | some handle =>
      let entries ← map.entries.bringToFront handle
      let (entries, old) := entries.replace handle (key, value)
      let map := { map with entries }
      return ({ map with counters := ⟨map.counters.core.countUpdate⟩ }, old.map Prod.snd)
  | none =>
      let map ← map.makeRoom
      return (← map.add key value, none)

/-! ## Text -/

def outline (map : AccessMap κ ν) : Outline :=
  .record "LruHashMap"
    [("capacity", .ofNat map.capacity.val), ("len", .ofNat map.entries.length)]

end AccessMap

end BoundedCache
