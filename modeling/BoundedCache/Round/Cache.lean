import BoundedCache.CacheLike
import BoundedCache.HashCode
import BoundedCache.Message
import BoundedCache.Round.List

/-!
# Round caches

A round cache gives up entries that went untouched for two full rounds of visits. Every lookup
that finds its key and every put is a visit and moves the clock on by one; after a fixed number of
visits a round begins. Entries lie on the chain of their bucket and on the round list.
-/

namespace BoundedCache

open Round

namespace Round

/-- A stored value with its key, the key's hash code and the links of its bucket. -/
structure Entry (κ ν : Type) where
  hash : UInt32
  key : κ
  value : ν
  bucket : ChainLinks := {}

/-- The links of the chain of a bucket. -/
def bucketField {κ ν : Type} : ChainField (Node (Entry κ ν)) where
  get node := node.item.bucket
  set links node := { node with item := { node.item with bucket := links } }
  get_set _ _ := rfl

end Round

/-- A cache that evicts by rounds of visits. -/
structure RoundCache (κ ν : Type) where
  /-- The most entries the cache holds at rest. -/
  limit : Nat
  /-- The number of visits in a round. -/
  roundLength : Nat
  /-- The first node of each bucket. -/
  buckets : Array (Option Nat)
  list : RoundList (Round.Entry κ ν)
  /-- The number of visits so far. -/
  tick : Nat
  /-- The number of visits in this round. -/
  visits : Nat
  /-- The number of entries. -/
  size : Nat
  core : Counters
  victimMisses : Nat

namespace RoundCache

variable {κ ν : Type}

/-! ## Building -/

/-- The limit of a cache has to be greater than this. -/
def minLimit : Nat := 50

/-- Four buckets for every three entries. -/
def bucketCount (limit : Nat) : Nat :=
  limit / 3 * 4 + limit % 3 * 4 / 3

/-- A third of what the limit leaves after four entries. -/
def roundLengthFor (limit : Nat) : Nat :=
  (limit - 4) / 3

/-- The cache without entries, if its limit can be served. -/
def ofLimit (limit : Nat) : Except SizingError (RoundCache κ ν) :=
  if limit ≤ minLimit then .error (.capacityTooSmall limit minLimit)
  else .ok
    { limit := limit
      roundLength := roundLengthFor limit
      buckets := Array.replicate (bucketCount limit) none
      list := .empty
      tick := 0
      visits := 0
      size := 0
      core := {}
      victimMisses := 0 }

/-- The cache that the settings ask for. -/
def ofSettings (settings : RoundSettings) : Except SizingError (RoundCache κ ν) :=
  ofLimit settings.limit

/-- What the log tells about a new cache. -/
def creationMessage (cache : RoundCache κ ν) : Message :=
  ⟨.debug, "created 3Q LRU cache: max_size=" ++ toString cache.limit ++
    ", buckets=" ++ toString cache.buckets.size ++
    ", victim_size=" ++ toString cache.roundLength⟩

/-! ## Reading -/

def isEmpty (cache : RoundCache κ ν) : Bool :=
  cache.size == 0

def counters (cache : RoundCache κ ν) : RoundCounters where
  core := cache.core
  victimMisses := cache.victimMisses
  rounds := cache.list.rounds
  scanned := cache.list.scanned

/-- The bucket for a hash code. -/
@[inline] def bucketOf (cache : RoundCache κ ν) (hash : UInt32) : Nat :=
  hash.toNat % cache.buckets.size

/-- The first node of a bucket. -/
def bucketHead (cache : RoundCache κ ν) (bucket : Nat) : Checked (Option Nat) :=
  match cache.buckets[bucket]? with
  | none => .error (.outOfRange bucket cache.buckets.size)
  | some head => .ok head

/-- Looks for a key on the chain of a bucket, in at most `fuel` steps. -/
def findFrom [BEq κ] (nodes : Slab (Node (Round.Entry κ ν))) (hash : UInt32) (key : κ) :
    Nat → Option Nat → Checked (Option Nat)
  | 0, _ => .ok none
  | _ + 1, none => .ok none
  | fuel + 1, some index => do
      let node ← nodes.fetch index
      if node.item.hash == hash && node.item.key == key then return some index
      findFrom nodes hash key fuel node.item.bucket.next

/-- The slot that holds a key under a hash code. A chain has no more nodes than there are slots,
so the steps suffice. -/
def find [BEq κ] (cache : RoundCache κ ν) (hash : UInt32) (key : κ) :
    Checked (Option Nat) := do
  let head ← cache.bucketHead (cache.bucketOf hash)
  findFrom cache.list.nodes hash key cache.list.nodes.slots.size head

/-- Whether a key is held. This is no visit. -/
def contains [BEq κ] [Hashable κ] (cache : RoundCache κ ν) (key : κ) : Checked Bool := do
  return (← cache.find (HashCode.shifted key) key).isSome

/-! ## Visits -/

/-- Moves the clock on by one visit. The visit that completes a round begins the next one. -/
def advanceClock (cache : RoundCache κ ν) : RoundCache κ ν :=
  let tick := cache.tick + 1
  let visits := cache.visits + 1
  if cache.roundLength ≤ visits then
    { cache with tick, visits := 0, list := cache.list.beginRound tick }
  else { cache with tick, visits }

/-- Visits an entry, which moves it to the head of the list. -/
def visit (cache : RoundCache κ ν) (index : Nat) : Checked (RoundCache κ ν) := do
  let cache := cache.advanceClock
  let list ← (cache.list.setVisit index cache.tick).toChecked
  return { cache with list := ← (list.bringToHead index).toChecked }

/-- Counts an event with the counters of every cache. -/
@[inline] def tally (event : Counters → Counters) (cache : RoundCache κ ν) : RoundCache κ ν :=
  { cache with core := event cache.core }

/-- The value of a key, which counts as one visit. -/
def get [BEq κ] [Hashable κ] (cache : RoundCache κ ν) (key : κ) :
    Checked (RoundCache κ ν × Option ν) := do
  match ← cache.find (HashCode.shifted key) key with
  | none => return (cache.tally Counters.countMiss, none)
  | some index =>
      let cache ← cache.visit index
      let node ← cache.list.nodes.fetch index
      return (cache.tally Counters.countHit, some node.item.value)

/-! ## Buckets -/

/-- Replaces the nodes of the list. -/
@[inline] def withNodes (cache : RoundCache κ ν) (nodes : Slab (Node (Round.Entry κ ν))) :
    RoundCache κ ν :=
  { cache with list := { cache.list with nodes } }

/-- Puts a node in front of its bucket. -/
def linkBucket (cache : RoundCache κ ν) (index : Nat) : Checked (RoundCache κ ν) := do
  let node ← cache.list.nodes.fetch index
  let bucket := cache.bucketOf node.item.hash
  let first ← cache.bucketHead bucket
  let nodes ← bucketField.pushFront cache.list.nodes first index
  let buckets := cache.buckets.setIfInBounds bucket (some index)
  return { cache with buckets }.withNodes nodes

/-- Takes a node off its bucket. A node with nothing before it is the first of its bucket. -/
def unlinkBucket (cache : RoundCache κ ν) (index : Nat) : Checked (RoundCache κ ν) := do
  let node ← cache.list.nodes.fetch index
  let { prev, next } := node.item.bucket
  let nodes ← bucketField.join cache.list.nodes prev next
  let cache := cache.withNodes nodes
  if prev.isSome then return cache
  let bucket := cache.bucketOf node.item.hash
  return { cache with buckets := cache.buckets.setIfInBounds bucket next }

/-! ## Removal -/

/-- Empties the slot of an entry that is on no chain any more and hands the entry out. -/
def vacate (cache : RoundCache κ ν) (index : Nat) :
    RoundCache κ ν × Option (Round.Entry κ ν) :=
  let (list, entry) := cache.list.discard index
  ({ cache with list, size := cache.size - 1 }, entry)

/-- Removes a key and hands out its value. -/
def remove [BEq κ] [Hashable κ] (cache : RoundCache κ ν) (key : κ) :
    Checked (RoundCache κ ν × Option ν) := do
  match ← cache.find (HashCode.shifted key) key with
  | none => return (cache, none)
  | some index =>
      let cache ← cache.unlinkBucket index
      let list ← (cache.list.unlink index).toChecked
      let (cache, entry) := { cache with list }.vacate index
      return (cache.tally Counters.countRemoval, entry.map Round.Entry.value)

/-- The same cache without its entries. Clock, headers and counters are kept, and the visits of
this round are counted anew. -/
def clear (cache : RoundCache κ ν) : RoundCache κ ν :=
  { cache with
    buckets := Array.replicate cache.buckets.size none
    list := cache.list.clear
    visits := 0
    size := 0 }

/-! ## Eviction -/

/-- What making room led to. -/
inductive Eviction (κ ν : Type) where
  /-- This entry was evicted. -/
  | evicted (victim : Round.Entry κ ν)
  /-- No entry was old enough, and the cache stays over its limit. -/
  | missed (size limit : Nat)

/-- Evicts the victim that the list gives up, if there is one. -/
def evict (cache : RoundCache κ ν) : Checked (RoundCache κ ν × Option (Eviction κ ν)) := do
  let (list, victim) ← (cache.list.selectVictim cache.roundLength).toChecked
  let cache := { cache with list }
  match victim with
  | none =>
      return ({ cache with victimMisses := cache.victimMisses + 1 },
        some (.missed cache.size cache.limit))
  | some index =>
      let cache ← cache.unlinkBucket index
      let (cache, entry) := cache.vacate index
      return (cache.tally Counters.countEviction, entry.map .evicted)

/-! ## Storing -/

/-- What a put replaced and what making room led to. -/
structure PutResult (κ ν : Type) where
  previous : Option ν
  eviction : Option (Eviction κ ν)

/-- Adds an entry for a new key, which is a visit. -/
def add (cache : RoundCache κ ν) (hash : UInt32) (key : κ) (value : ν) :
    Checked (RoundCache κ ν) := do
  let cache := cache.advanceClock
  let (list, index) := cache.list.store { hash, key, value } cache.tick
  let cache ← { cache with list }.linkBucket index
  let list ← (cache.list.link index).toChecked
  return { cache with list, size := cache.size + 1 }.tally Counters.countInsertion

/-- Replaces the value of an entry, which is a visit, and hands out the old one. The key keeps its
spelling. -/
def overwrite (cache : RoundCache κ ν) (index : Nat) (value : ν) :
    Checked (RoundCache κ ν × ν) := do
  let cache ← cache.visit index
  let node ← cache.list.nodes.fetch index
  let nodes ← cache.list.nodes.modify index fun node =>
    { node with item := { node.item with value } }
  return ((cache.withNodes nodes).tally Counters.countUpdate, node.item.value)

/-- Stores a value under a key. A new key that takes the cache over its limit evicts an entry. -/
def put [BEq κ] [Hashable κ] (cache : RoundCache κ ν) (key : κ) (value : ν) :
    Checked (RoundCache κ ν × PutResult κ ν) := do
  let hash := HashCode.shifted key
  match ← cache.find hash key with
  | some index =>
      let (cache, previous) ← cache.overwrite index value
      return (cache, ⟨some previous, none⟩)
  | none =>
      let cache ← cache.add hash key value
      if cache.limit < cache.size then
        let (cache, eviction) ← cache.evict
        return (cache, ⟨none, eviction⟩)
      else return (cache, ⟨none, none⟩)

/-- What the log tells about a put. -/
def PutResult.messages (result : PutResult κ ν) : List Message :=
  match result.eviction with
  | some (.missed size limit) =>
      [⟨.debug, "no eviction victim found, cache holds " ++ toString size ++ " of " ++
        toString limit ++ " entries"⟩]
  | _ => []

/-- The keys a put evicted, as they are stored. -/
def PutResult.evictedKeys (result : PutResult κ ν) : List κ :=
  match result.eviction with
  | some (.evicted victim) => [victim.key]
  | _ => []

instance [BEq κ] [Hashable κ] : CacheLike (RoundCache κ ν) κ ν where
  size := RoundCache.size
  get := RoundCache.get
  put cache key value := do
    let (cache, result) ← cache.put key value
    return (cache, result.previous)
  remove := RoundCache.remove

/-! ## Text -/

def outline (cache : RoundCache κ ν) : Outline :=
  .record "ConcurrentLruCache"
    [ ("max_size", .ofNat cache.limit),
      ("size", .ofNat cache.size),
      ("victim_size", .ofNat cache.roundLength),
      ("buckets", .ofNat cache.buckets.size),
      ("list", cache.list.outline) ]

end RoundCache

end BoundedCache
