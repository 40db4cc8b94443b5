import BoundedCache.Clock.Table
import BoundedCache.HashCode
import BoundedCache.Message

/-!
# Sweeps of the clock hand

A sweep follows the ring backwards from the hand and consumes one visit of each entry it passes.
The first entry left without visits is the victim: it is removed, and the hand takes its place. A
sweep passes at most a third of the entries and three more; when that budget is spent, the hand is
parked where the next sweep goes on.
-/

namespace BoundedCache.Clock

/-- How a sweep came to its end. -/
inductive SweepEnd where
  /-- The hand came round to itself. -/
  | lapped
  /-- The budget was spent before this entry was passed. -/
  | exhausted (index : Nat)
  /-- This entry had no visit left. -/
  | victim (index : Nat)
deriving DecidableEq

/-- Consumes one visit. -/
def Entry.age {κ ν : Type} (entry : Entry κ ν) : Entry κ ν :=
  { entry with visits := entry.visits - 1 }

/-- Whether all visits of the node are consumed. -/
def Node.isSpent {κ ν : Type} (node : Node κ ν) : Bool :=
  match node.entry with
  | none => true
  | some entry => entry.visits == 0

namespace Table

variable {κ ν : Type}

/-- How many entries a sweep may pass. -/
@[inline] def budget (table : Table κ ν) : Nat :=
  table.size / 3 + 3

/-- Follows the ring backwards from `index`, consuming visits, and tells how many entries were
passed and why it ended there. -/
def sweepFrom (hand : Nat) (nodes : Slab (Node κ ν)) :
    Nat → Nat → Checked (Slab (Node κ ν) × Nat × SweepEnd)
  | 0, index =>
      .ok (nodes, 0, if index = hand then .lapped else .exhausted index)
  | budget + 1, index =>
      if index = hand then .ok (nodes, 0, .lapped)
      else do
        let nodes ← nodes.modify index (Node.mapEntry Entry.age)
        let node ← nodes.fetch index
        if node.isSpent then return (nodes, 1, .victim index)
        let (nodes, passed, ending) ← sweepFrom hand nodes budget node.ring.prev
        return (nodes, passed + 1, ending)

/-- Takes a victim off both rings, leaving the hand in its place, and hands it out. -/
def evict (table : Table κ ν) (index : Nat) : Checked (Table κ ν × Option (Entry κ ν)) := do
  let nodes ← bucketField.detach table.nodes index
  let nodes ← ringField.moveAfter nodes index table.hand
  let nodes ← ringField.detach nodes index
  return { table with nodes }.tally Counters.countEviction |>.vacate index

/-- Counts a sweep that passed this many entries. -/
@[inline] def countSweep (passed : Nat) (table : Table κ ν) : Table κ ν :=
  let sweeps := table.counters.sweeps + 1
  let scanned := table.counters.scanned + passed
  { table with counters := { table.counters with sweeps, scanned } }

/-- Parks the hand where the next sweep begins with the entry at `index`. -/
def park (table : Table κ ν) (index : Nat) : Checked (Table κ ν) := do
  let nodes ← ringField.moveAfter table.nodes index table.hand
  let exhausted := table.counters.exhausted + 1
  return { table with nodes, counters := { table.counters with exhausted } }

/-- Runs one sweep and hands out the victim, if it found one. -/
def sweep (table : Table κ ν) : Checked (Table κ ν × Option (Entry κ ν)) := do
  let start := (← table.nodes.fetch table.hand).ring.prev
  if start = table.hand then return (table, none)
  let (nodes, passed, ending) ← sweepFrom table.hand table.nodes table.budget start
  let table := { table with nodes }.countSweep passed
  match ending with
  | .lapped => return (table, none)
  | .exhausted index => return (← table.park index, none)
  | .victim index => table.evict index

end Table

/-- What the log tells about a victim. -/
def Entry.evictionMessage {κ ν : Type} (entry : Entry κ ν) : Message :=
  ⟨.trace, "segment evicted entry with hash " ++ HashCode.hex entry.hash⟩

end BoundedCache.Clock
