import BoundedCache.Metric
import BoundedCache.Outline

/-!
# Counters

Every cache counts its lookups, puts, removals and evictions. A clock table also counts the work
of its sweeps, a round cache that of its victim searches. Counters of several shards are added up.
-/

namespace BoundedCache

/-! ## Counters of every cache -/

/-- What every cache counts. -/
structure Counters where
  /-- Lookups. -/
  requests : Nat := 0
  /-- Lookups that found their key. -/
  hits : Nat := 0
  /-- Puts of a new key. -/
  insertions : Nat := 0
  /-- Puts that replaced a value. -/
  updates : Nat := 0
  /-- Entries removed on request. -/
  removals : Nat := 0
  /-- Entries removed to make room. -/
  evictions : Nat := 0
deriving DecidableEq

namespace Counters

def countHit (counters : Counters) : Counters :=
  { counters with requests := counters.requests + 1, hits := counters.hits + 1 }

def countMiss (counters : Counters) : Counters :=
  { counters with requests := counters.requests + 1 }

def countInsertion (counters : Counters) : Counters :=
  { counters with insertions := counters.insertions + 1 }

def countUpdate (counters : Counters) : Counters :=
  { counters with updates := counters.updates + 1 }

def countRemoval (counters : Counters) : Counters :=
  { counters with removals := counters.removals + 1 }

def countEviction (counters : Counters) : Counters :=
  { counters with evictions := counters.evictions + 1 }

/-- Counters add up field by field. -/
protected def add (left right : Counters) : Counters where
  requests := left.requests + right.requests
  hits := left.hits + right.hits
  insertions := left.insertions + right.insertions
  updates := left.updates + right.updates
  removals := left.removals + right.removals
  evictions := left.evictions + right.evictions

instance : Add Counters := ⟨Counters.add⟩

/-- Lookups that did not find their key. -/
def misses (counters : Counters) : Nat :=
  counters.requests - counters.hits

/-- The share of lookups that found their key. -/
def hitRate (counters : Counters) : Metric :=
  .share counters.hits counters.requests

/-- The share of lookups that did not find their key. -/
def missRate (counters : Counters) : Metric :=
  .share counters.misses counters.requests

/-- The evictions for each lookup, once there was one. -/
def evictionRate (counters : Counters) : Report :=
  if counters.requests = 0 then []
  else [("eviction_rate", .share counters.evictions counters.requests)]

/-- All counters and rates. -/
def report (counters : Counters) : Report :=
  Report.sorted <|
    [ ("requests", .count counters.requests),
      ("cache_hits", .count counters.hits),
      ("cache_misses", .count counters.misses),
      ("insertions", .count counters.insertions),
      ("updates", .count counters.updates),
      ("removals", .count counters.removals),
      ("evictions", .count counters.evictions),
      ("hit_rate", counters.hitRate),
      ("miss_rate", counters.missRate) ] ++ counters.evictionRate

def outline (counters : Counters) : Outline :=
  .record "CoreCacheMetrics"
    [ ("requests", .ofNat counters.requests),
      ("cache_hits", .ofNat counters.hits),
      ("insertions", .ofNat counters.insertions),
      ("updates", .ofNat counters.updates),
      ("removals", .ofNat counters.removals),
      ("evictions", .ofNat counters.evictions) ]

end Counters

/-! ## Counters of a clock table -/

/-- What a clock table counts. -/
structure ClockCounters where
  core : Counters := {}
  /-- Sweeps of a table that held an entry. -/
  sweeps : Nat := 0
  /-- Entries that lost a visit to a sweep. -/
  scanned : Nat := 0
  /-- Sweeps that spent their budget before they found a victim. -/
  exhausted : Nat := 0
deriving DecidableEq

namespace ClockCounters

/-- The name of the eviction rule. -/
def algorithm : String := "SegmentLFU"

/-- Counters add up field by field. -/
protected def add (left right : ClockCounters) : ClockCounters where
  core := left.core + right.core
  sweeps := left.sweeps + right.sweeps
  scanned := left.scanned + right.scanned
  exhausted := left.exhausted + right.exhausted

instance : Add ClockCounters := ⟨ClockCounters.add⟩

/-- Entries that a sweep passes on average. -/
def meanSweep (counters : ClockCounters) : Metric :=
  .share counters.scanned counters.sweeps

def report (counters : ClockCounters) : Report :=
  Report.sorted <|
    [ ("eviction_sweeps", .count counters.sweeps),
      ("entries_scanned", .count counters.scanned),
      ("batch_exhausted", .count counters.exhausted),
      ("avg_sweep_length", counters.meanSweep) ] ++ counters.core.report

def outline (counters : ClockCounters) : Outline :=
  .record "SegmentLfuMetrics"
    [ ("core", counters.core.outline),
      ("eviction_sweeps", .ofNat counters.sweeps),
      ("entries_scanned", .ofNat counters.scanned),
      ("batch_exhausted", .ofNat counters.exhausted) ]

end ClockCounters

/-! ## Counters of a round cache -/

/-- What a round cache counts. -/
structure RoundCounters where
  core : Counters := {}
  /-- Victim searches that found no entry old enough. -/
  victimMisses : Nat := 0
  /-- Rounds that were begun. -/
  rounds : Nat := 0
  /-- Entries that victim searches passed over. -/
  scanned : Nat := 0
deriving DecidableEq

namespace RoundCounters

/-- The name of the eviction rule. -/
def algorithm : String := "3Q-LRU"

def report (counters : RoundCounters) : Report :=
  Report.sorted <|
    [ ("victim_misses", .count counters.victimMisses),
      ("header_pushes", .count counters.rounds),
      ("entries_scanned", .count counters.scanned) ] ++ counters.core.report

def outline (counters : RoundCounters) : Outline :=
  .record "ThreeQMetrics"
    [ ("core", counters.core.outline),
      ("victim_misses", .ofNat counters.victimMisses),
      ("header_pushes", .ofNat counters.rounds),
      ("entries_scanned", .ofNat counters.scanned) ]

end RoundCounters

/-! ## Counters of an access map -/

/-- What an access map counts: nothing beyond the counters of every cache. -/
structure AccessCounters where
  core : Counters := {}
deriving DecidableEq

namespace AccessCounters

/-- The name of the eviction rule. -/
def algorithm : String := "LRU"

def report (counters : AccessCounters) : Report :=
  counters.core.report

def outline (counters : AccessCounters) : Outline :=
  .record "LruHashMapMetrics" [("core", counters.core.outline)]

end AccessCounters

end BoundedCache
