import BoundedCache.Counters
import BoundedCache.Links.Ring
import BoundedCache.Sizing

/-!
# Clock tables

A clock table is a hash table whose entries lie on two kinds of rings: on the ring of their
bucket, and on one ring through the whole table that the clock hand travels. Slots
`0, …, buckets - 1` hold the anchors of the bucket rings and slot `buckets` holds the hand. Each
entry counts the visits that the hand has not yet consumed.
-/

namespace BoundedCache.Clock

/-! ## Nodes -/

/-- A stored value with its key, the key's hash code and the visits not yet consumed. -/
structure Entry (κ ν : Type) where
  hash : UInt32
  key : κ
  value : ν
  visits : Nat

/-- The most visits an entry can hold. -/
def maxVisits : Nat := 0xffffffff

/-- Counts one more visit, up to the most an entry can hold. -/
def Entry.visit {κ ν : Type} (entry : Entry κ ν) : Entry κ ν :=
  { entry with visits := min (entry.visits + 1) maxVisits }

/-- A place on the rings; an anchor and the hand have no entry. -/
structure Node (κ ν : Type) where
  entry : Option (Entry κ ν)
  bucket : Links
  ring : Links

namespace Node

variable {κ ν : Type}

/-- A node without an entry, alone on its rings. -/
def anchor (index : Nat) : Node κ ν :=
  ⟨none, .alone index, .alone index⟩

/-- Whether the node holds this key under this hash code. -/
def holds [BEq κ] (node : Node κ ν) (hash : UInt32) (key : κ) : Bool :=
  match node.entry with
  | none => false
  | some entry => entry.hash == hash && entry.key == key

/-- The node with a changed entry, if it has one. -/
def mapEntry (change : Entry κ ν → Entry κ ν) (node : Node κ ν) : Node κ ν :=
  { node with entry := node.entry.map change }

end Node

/-- The links of the ring of a bucket. -/
def bucketField {κ ν : Type} : LinkField (Node κ ν) where
  get node := node.bucket
  set links node := { node with bucket := links }
  get_set _ _ := rfl

/-- The links of the ring that the hand travels. -/
def ringField {κ ν : Type} : LinkField (Node κ ν) where
  get node := node.ring
  set links node := { node with ring := links }
  get_set _ _ := rfl

/-! ## Tables -/

/-- A hash table with a clock hand. -/
structure Table (κ ν : Type) where
  nodes : Slab (Node κ ν)
  /-- The number of buckets, a power of two; also the slot of the hand. -/
  buckets : Nat
  /-- The number of entries. -/
  size : Nat
  counters : ClockCounters

namespace Table

variable {κ ν : Type}

/-- A table without buckets, which stands in where a table is taken out to be changed. -/
instance : Inhabited (Table κ ν) :=
  ⟨⟨.empty, 0, 0, {}⟩⟩

/-- A table without entries. -/
def empty (buckets : Nat) : Table κ ν where
  nodes := .ofArray ((Array.range (buckets + 1)).map Node.anchor)
  buckets := buckets
  size := 0
  counters := {}

/-- A bucket is selected by low bits of the hash code, so the number of buckets has to be a power
of two that a 32-bit word can hold. -/
def isBucketCount (buckets : Nat) : Bool :=
  1 <<< buckets.log2 == buckets && decide (buckets < 1 <<< 32)

/-- A table without entries, if it can have this number of buckets. -/
def ofBuckets (buckets : Nat) : Except SizingError (Table κ ν) :=
  if isBucketCount buckets then .ok (empty buckets) else .error (.bucketCount buckets)

/-- The same table without its entries; the counters are kept. -/
def clear (table : Table κ ν) : Table κ ν :=
  { empty table.buckets with counters := table.counters }

/-- Counts an event with the counters of every cache. -/
@[inline] def tally (event : Counters → Counters) (table : Table κ ν) : Table κ ν :=
  { table with counters := { table.counters with core := event table.counters.core } }

/-- The slot of the hand. -/
@[inline] def hand (table : Table κ ν) : Nat :=
  table.buckets

/-- The slot of the bucket for a hash code. -/
@[inline] def bucketOf (table : Table κ ν) (hash : UInt32) : Nat :=
  hash.toNat % table.buckets

/-! ## Lookups -/

/-- Looks for a key on the ring of a bucket, from `index` on and in at most `fuel` steps. -/
def findFrom [BEq κ] (nodes : Slab (Node κ ν)) (bucket : Nat) (hash : UInt32) (key : κ) :
    Nat → Nat → Checked (Option Nat)
  | 0, _ => .ok none
  | fuel + 1, index =>
      if index = bucket then .ok none
      else do
        let node ← nodes.fetch index
        if node.holds hash key then return some index
        findFrom nodes bucket hash key fuel node.bucket.next

/-- The slot that holds a key under a hash code. A ring is shorter than the slab, so the steps
suffice. -/
def find [BEq κ] (table : Table κ ν) (hash : UInt32) (key : κ) : Checked (Option Nat) := do
  let bucket := table.bucketOf hash
  let anchor ← table.nodes.fetch bucket
  findFrom table.nodes bucket hash key table.nodes.slots.size anchor.bucket.next

/-- The value of a key, which counts as one visit. -/
def get [BEq κ] (table : Table κ ν) (hash : UInt32) (key : κ) :
    Checked (Table κ ν × Option ν) := do
  match ← table.find hash key with
  | none => return (table.tally Counters.countMiss, none)
  | some index =>
      let node ← table.nodes.fetch index
      let nodes ← table.nodes.modify index (Node.mapEntry Entry.visit)
      return ({ table with nodes }.tally Counters.countHit, node.entry.map Entry.value)

/-! ## Storing -/

/-- Adds an entry in front of its bucket and right after the hand, with one visit. -/
def add (table : Table κ ν) (hash : UInt32) (key : κ) (value : ν) :
    Checked (Table κ ν) := do
  let (nodes, index) := table.nodes.insert ⟨some ⟨hash, key, value, 1⟩, .alone 0, .alone 0⟩
  let nodes ← bucketField.insertAfter nodes (table.bucketOf hash) index
  let nodes ← ringField.insertAfter nodes table.hand index
  return { table with nodes, size := table.size + 1 }.tally Counters.countInsertion

/-- Stores a value and hands out the one it replaces. A key that is held keeps its spelling and
its place on the rings, and is visited once more. -/
def put [BEq κ] (table : Table κ ν) (hash : UInt32) (key : κ) (value : ν) :
    Checked (Table κ ν × Option ν) := do
  match ← table.find hash key with
  | none => return (← table.add hash key value, none)
  | some index =>
      let node ← table.nodes.fetch index
      let nodes ← table.nodes.modify index (Node.mapEntry fun entry => { entry.visit with value })
      return ({ table with nodes }.tally Counters.countUpdate, node.entry.map Entry.value)

/-! ## Removal -/

/-- Empties the slot of an entry that is on no ring any more and hands the entry out. -/
def vacate (table : Table κ ν) (index : Nat) : Table κ ν × Option (Entry κ ν) :=
  let (nodes, node) := table.nodes.erase index
  ({ table with nodes, size := table.size - 1 }, node.bind Node.entry)

/-- Removes a key and hands out its value. -/
def remove [BEq κ] (table : Table κ ν) (hash : UInt32) (key : κ) :
    Checked (Table κ ν × Option ν) := do
  match ← table.find hash key with
  | none => return (table, none)
  | some index =>
      let nodes ← bucketField.detach table.nodes index
      let nodes ← ringField.detach nodes index
      let (table, entry) := { table with nodes }.vacate index
      return (table.tally Counters.countRemoval, entry.map Entry.value)

/-! ## Text -/

def outline (table : Table κ ν) : Outline :=
  .record "Segment" [("entry_size", .ofNat table.buckets), ("item_size", .ofNat table.size)]

end Table

end BoundedCache.Clock
