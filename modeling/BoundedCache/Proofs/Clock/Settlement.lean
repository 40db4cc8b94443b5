import BoundedCache.Proofs.Clock.Newcomers
import BoundedCache.Proofs.Clock.Overflow
import BoundedCache.Proofs.Clock.Payment

/-!
# Accesses pay for evictions

In a clock cache the shards sweep for one another: the access that takes the cache over its limit
adds a visit to one shard, and the sweeps that it causes consume visits of others. Each shard for
itself is balanced all the same, so the counters of the whole cache are.
-/

namespace BoundedCache

open Clock

namespace ClockCache

variable {κ ν : Type}

/-- Where a dial is replaced by a balanced one, all dials are balanced. -/
theorem balanced_update {dials : Nat → Dial κ ν} {losts : Nat → Nat} {count : Nat}
    (balanced : ∀ index < count, (dials index).Balanced (losts index)) {dial : Dial κ ν}
    {index lost : Nat} (here : dial.Balanced lost) :
    ∀ other < count, (Function.update dials index dial other).Balanced
      (Function.update losts index lost other) := by
  intro other inBounds
  by_cases same : other = index
  · subst same
    rw [Function.update_self, Function.update_self]
    exact here
  · rw [Function.update_of_ne same, Function.update_of_ne same]
    exact balanced other inBounds

variable [BEq κ] [Hashable κ]

/-! ## Visits -/

/-- The visits that the entries of all shards hold. -/
def visits (cache : ClockCache κ ν) : Checked Nat :=
  cache.shards.toList.foldlM (fun total shard => return total + (← shard.visits)) 0

/-- The request wastes visits in the shard of its key. -/
def WastesAt (cache : ClockCache κ ν) (key : κ) (request : Request κ ν) : Prop :=
  ∃ shard, cache.shards[cache.geometry.shardOf (HashCode.avalanched key)]? = some shard ∧
    shard.Wastes request

/-- The request wastes visits in some shard. -/
def Wastes (cache : ClockCache κ ν) : CacheRequest κ ν → Prop
  | .get key => cache.WastesAt key (.get (HashCode.avalanched key) key)
  | .put key value => cache.WastesAt key (.put (HashCode.avalanched key) key value)
  | .remove key => cache.WastesAt key (.remove (HashCode.avalanched key) key)
  | .contains _ => False
  | .size => False
  | .clear => ∃ shard ∈ cache.shards, shard.Wastes .clear

omit [Hashable κ] in
theorem foldlM_visits {tables : List (Table κ ν)} {dials : List (Dial κ ν)}
    (shows : List.Forall₂ Table.Shows tables dials) (start : Nat) :
    tables.foldlM (fun total table => return total + (← table.visits)) start =
      (.ok (start + (dials.map fun dial => weight dial.entries).sum) : Checked Nat) := by
  induction shows generalizing start with
  | nil => rfl
  | cons showsFirst _ inductionHypothesis =>
      rw [List.foldlM_cons, showsFirst.visits_eq, ok_bind, pure_eq_ok, ok_bind,
        inductionHypothesis, List.map_cons, List.sum_cons, Nat.add_assoc]

variable {cache after : ClockCache κ ν} {dials dialsAfter : Nat → Dial κ ν}
  {map mapAfter : Std.HashMap κ ν} {losts lostsAfter : Nat → Nat}

theorem Houses.visits_eq (houses : cache.Houses dials map) :
    cache.visits =
      .ok (∑ index ∈ Finset.range cache.geometry.shards, weight (dials index).entries) := by
  have shows : List.Forall₂ Table.Shows cache.shards.toList
      ((List.range cache.shards.size).map dials) := by
    refine List.forall₂_iff_get.2 ⟨by simp, fun index inBounds _ => ?_⟩
    have inShards : index < cache.shards.size := by simpa using inBounds
    simpa using houses.shows index inShards
  rw [visits, foldlM_visits shows, Nat.zero_add, List.map_map, ← houses.sized]
  rfl

/-! ## Single shards -/

/-- A request to the shard of a key leaves all dials balanced, and nothing more is lost unless it
wastes visits there. -/
theorem Houses.balanced_serve [EquivBEq κ] (houses : cache.Houses dials map)
    (balanced : ∀ index < cache.geometry.shards, (dials index).Balanced (losts index)) (key : κ)
    (request : Request κ ν) :
    let shard := cache.geometry.shardOf (HashCode.avalanched key)
    ∃ lostsAfter,
      (∀ other < cache.geometry.shards,
        (Function.update dials shard ((dials shard).serve request).1 other).Balanced
          (lostsAfter other)) ∧
      (¬ cache.WastesAt key request → lostsAfter = losts) := by
  intro shard
  have inBounds : shard < cache.geometry.shards := houses.shardOf_lt _
  have inShards : shard < cache.shards.size := houses.sized ▸ inBounds
  obtain ⟨lost, here, still⟩ :=
    (balanced shard inBounds).serve (houses.valid shard inBounds) request
  refine ⟨_, balanced_update balanced here, fun saving => ?_⟩
  have saves : ¬ Clock.Wastes (dials shard).entries request := fun wastes =>
    saving ⟨_, Array.getElem?_eq_getElem inShards, (houses.shows shard inShards).wastes wastes⟩
  rw [still saves, Function.update_eq_self]

/-- The sweeps of an eviction leave all dials balanced and lose nothing. -/
theorem Trail.balanced [EquivBEq κ] [LawfulHashable κ] {positions : List Nat}
    {victim : Entry κ ν} (trail : Trail cache positions after victim) :
    ∀ {dials : Nat → Dial κ ν} {map : Std.HashMap κ ν}, cache.Houses dials map →
      (∀ index < cache.geometry.shards, (dials index).Balanced (losts index)) →
      ∃ dialsAfter mapAfter, after.Houses dialsAfter mapAfter ∧
        after.geometry = cache.geometry ∧
        ∀ index < cache.geometry.shards, (dialsAfter index).Balanced (losts index) := by
  have swept : ∀ {cache : ClockCache κ ν} {dials : Nat → Dial κ ν} {map : Std.HashMap κ ν},
      cache.Houses dials map →
      (∀ index < cache.geometry.shards, (dials index).Balanced (losts index)) →
      ∀ index < cache.geometry.shards,
        (Function.update dials cache.turn (dials cache.turn).sweep.1 index).Balanced
          (losts index) := by
    intro cache dials map houses balanced
    have here : (dials cache.turn).sweep.1.Balanced (losts cache.turn) :=
      (balanced _ houses.turn_lt).sweep (houses.valid _ houses.turn_lt)
    intro index inBounds
    have there : (Function.update dials cache.turn (dials cache.turn).sweep.1 index).Balanced
        (Function.update losts cache.turn (losts cache.turn) index) :=
      balanced_update balanced here index inBounds
    rwa [Function.update_eq_self] at there
  induction trail with
  | last overLimit step =>
      intro dials map houses balanced
      obtain ⟨_, ⟨shards, size, rfl, _⟩, housesAfter⟩ := houses.of_sweepNext_some step
      exact ⟨_, _, housesAfter, rfl, swept houses balanced⟩
  | next overLimit step rest inductionHypothesis =>
      intro dials map houses balanced
      obtain ⟨_, ⟨shards, rfl⟩, housesMiddle⟩ := houses.of_sweepNext_none step
      exact inductionHypothesis housesMiddle (swept houses balanced)

/-! ## Caches -/

/-- The cache is within its limit, and its shards are balanced and have lost so many visits
together. -/
def Settled (cache : ClockCache κ ν) (lost : Nat) : Prop :=
  ∃ dials map, ∃ losts : Nat → Nat, cache.Houses dials map ∧ cache.size ≤ cache.limit ∧
    (∀ index < cache.geometry.shards, (dials index).Balanced (losts index)) ∧
    ∑ index ∈ Finset.range cache.geometry.shards, losts index = lost

variable [EquivBEq κ] [LawfulHashable κ]

theorem Houses.settled_put (houses : cache.Houses dials map) (within : cache.size ≤ cache.limit)
    (balanced : ∀ index < cache.geometry.shards, (dials index).Balanced (losts index)) (key : κ)
    (value : ν) :
    ∃ next result lostsAfter, cache.put key value = .ok (next, result) ∧
      next.Settled (∑ index ∈ Finset.range cache.geometry.shards, lostsAfter index) ∧
      (¬ cache.WastesAt key (.put (HashCode.avalanched key) key value) → lostsAfter = losts) := by
  obtain ⟨lostsAfter, balancedAfter, still⟩ :=
    houses.balanced_serve balanced key (.put (HashCode.avalanched key) key value)
  by_cases roomy : map[key]?.isSome ∨ cache.size < cache.limit
  · obtain ⟨shards, size, step, fits, housesAfter⟩ := houses.put_still within key roomy value
    exact ⟨_, _, lostsAfter, step, ⟨_, _, _, housesAfter, fits, balancedAfter, rfl⟩, still⟩
  · obtain ⟨missing, noRoom⟩ := not_or.1 roomy
    obtain ⟨storing, _, housesStored, shards, size, cursor, eviction, _, evicts, step, filled, _,
      _⟩ := houses.put_full (by omega) (by simpa using missing) value
    obtain ⟨positions, trail, _⟩ := exists_trail _ evicts
    obtain ⟨_, _, housesAfter, _, balancedFinally⟩ := trail.balanced housesStored balancedAfter
    exact ⟨_, _, lostsAfter, step,
      ⟨_, _, _, housesAfter, Nat.le_of_eq filled, balancedFinally, rfl⟩, still⟩

/-- A cache stays settled with every request, and nothing more is lost unless it wastes visits. -/
theorem Settled.serve {lost : Nat} (settled : cache.Settled lost) (request : CacheRequest κ ν) :
    ∃ next outcome lostAfter, cache.serve request = .ok (next, outcome) ∧
      next.Settled lostAfter ∧ (¬ cache.Wastes request → lostAfter = lost) := by
  obtain ⟨dials, map, losts, houses, within, balanced, rfl⟩ := settled
  cases request with
  | get key =>
      obtain ⟨shards, step, housesAfter⟩ := houses.get key
      obtain ⟨lostsAfter, balancedAfter, still⟩ :=
        houses.balanced_serve balanced key (.get (HashCode.avalanched key) key)
      refine ⟨_, { answer := .value map[key]? }, _, ?_,
        ⟨_, _, _, housesAfter, within, balancedAfter, rfl⟩, fun saving => by rw [still saving]⟩
      simp [ClockCache.serve, step]
  | put key value =>
      obtain ⟨next, result, lostsAfter, step, settledAfter, still⟩ :=
        houses.settled_put within balanced key value
      refine ⟨next, { answer := .value result.previous, evicted := result.evictedKeys }, _, ?_,
        settledAfter, fun saving => by rw [still saving]⟩
      simp [ClockCache.serve, step]
  | remove key =>
      obtain ⟨shards, step, housesAfter⟩ := houses.remove key
      obtain ⟨lostsAfter, balancedAfter, still⟩ :=
        houses.balanced_serve balanced key (.remove (HashCode.avalanched key) key)
      refine ⟨_, { answer := .value map[key]? }, _, ?_,
        ⟨_, _, _, housesAfter, ?_, balancedAfter, rfl⟩, fun saving => by rw [still saving]⟩
      · simp [ClockCache.serve, step]
      · dsimp only
        split <;> omega
  | contains key =>
      refine ⟨cache, { answer := .held (map.contains key) }, _, ?_,
        ⟨dials, map, losts, houses, within, balanced, rfl⟩, fun _ => rfl⟩
      simp [ClockCache.serve, houses.contains key]
  | size =>
      exact ⟨cache, _, _, rfl, ⟨dials, map, losts, houses, within, balanced, rfl⟩, fun _ => rfl⟩
  | clear =>
      have housesAfter := houses.clear
      have withinAfter : cache.clear.size ≤ cache.limit := by
        rw [← housesAfter.mapSize, Std.HashMap.size_empty]
        exact Nat.zero_le _
      have balancedAfter : ∀ index < cache.geometry.shards, (dials index).clear.Balanced
          (losts index + weight (dials index).entries) :=
        fun index inBounds => (balanced index inBounds).clear
      refine ⟨cache.clear, _, _, rfl, ⟨_, _, _, housesAfter, withinAfter, balancedAfter, rfl⟩,
        fun saving => Finset.sum_congr rfl fun index inRange => ?_⟩
      have inShards : index < cache.shards.size := houses.sized ▸ Finset.mem_range.1 inRange
      have none : (dials index).entries = [] := not_not.1 fun someEntries =>
        saving ⟨_, Array.getElem_mem inShards, (houses.shows index inShards).wastes someEntries⟩
      rw [none, weight_nil, Nat.add_zero]

theorem covers_of_ofLimit {limit concurrency : Nat} {fresh : ClockCache κ ν}
    (built : ofLimit limit concurrency = .ok fresh) (past : List (CacheRequest κ ν)) :
    ∃ cache outcomes held, serveAll ClockCache.serve fresh past = .ok (cache, outcomes) ∧
      cache.visits = .ok held ∧
      cache.counters.Covers held
        (Throughout ClockCache.serve (fun cache request => ¬ cache.Wastes request) fresh past) := by
  obtain ⟨freshHouses, empty, _⟩ := Houses.ofLimit built
  have settled : fresh.Settled 0 :=
    ⟨_, _, fun _ => 0, freshHouses, empty ▸ Nat.zero_le _,
      fun _ _ => ClockCounters.balanced_zero, Finset.sum_const_zero⟩
  obtain ⟨cache, outcomes, lost, run, ⟨dials, map, losts, houses, _, balanced, isLost⟩,
    nothingLost⟩ :=
      serveAll_keeps_measure (fun request settled => settled.serve request) past settled
  refine ⟨cache, outcomes, _, run, houses.visits_eq, ?_⟩
  rw [houses.counters]
  exact (ClockCounters.balanced_sum _ balanced).covers fun thrifty =>
    isLost.trans (nothingLost thrifty)

end ClockCache

/-! ## Tables and caches -/

/-- Whatever a new table or a new cache serves, its accesses cover the entries that were scanned
and the visits that are held. They are as many if no request took visits away or found an entry
full of them. Each sweep scans some entry, and it ends with an eviction or out of budget or with
neither. -/
theorem accesses_pay_for_sweeps {κ ν : Type} [BEq κ] [Hashable κ] [EquivBEq κ]
    [LawfulHashable κ] :
    (∀ (buckets : Nat) (fresh : Table κ ν), Table.ofBuckets buckets = .ok fresh →
      ∀ past : List (Request κ ν), ∃ table replies held,
        serveAll Table.serve fresh past = .ok (table, replies) ∧ table.visits = .ok held ∧
        table.counters.Covers held
          (Throughout Table.serve (fun table request => ¬ table.Wastes request) fresh past)) ∧
    ∀ (limit concurrency : Nat) (fresh : ClockCache κ ν),
      ClockCache.ofLimit limit concurrency = .ok fresh →
      ∀ past : List (CacheRequest κ ν), ∃ cache outcomes held,
        serveAll ClockCache.serve fresh past = .ok (cache, outcomes) ∧ cache.visits = .ok held ∧
        cache.counters.Covers held
          (Throughout ClockCache.serve (fun cache request => ¬ cache.Wastes request) fresh past) :=
  ⟨fun _ _ => Table.covers_of_ofBuckets, fun _ _ _ => ClockCache.covers_of_ofLimit⟩

/-- A table with one bucket that evicts one entry and removes another, and the smallest cache. -/
theorem accesses_pay_for_sweeps_smallest :
    (∃ (table : Table Nat Nat) (replies : List (Reply Nat Nat)) (held : Nat),
      serveAll Table.serve (Table.empty 1)
        [.put 0 1 10, .put 0 2 20, .get 0 1, .sweep, .put 0 3 30, .remove 0 1] =
          .ok (table, replies) ∧
      table.visits = .ok held ∧
      table.counters.Covers held
        (Throughout Table.serve (fun table request => ¬ table.Wastes request) (Table.empty 1)
          [.put 0 1 10, .put 0 2 20, .get 0 1, .sweep, .put 0 3 30, .remove 0 1])) ∧
    ∃ fresh : ClockCache Nat Nat, ClockCache.ofLimit 1524 16 = .ok fresh ∧
      ∃ cache outcomes held,
        serveAll ClockCache.serve fresh [.put 1 10, .get 1, .put 2 20, .remove 3] =
          .ok (cache, outcomes) ∧
        cache.visits = .ok held ∧
        cache.counters.Covers held
          (Throughout ClockCache.serve (fun cache request => ¬ cache.Wastes request) fresh
            [.put 1 10, .get 1, .put 2 20, .remove 3]) := by
  obtain ⟨tables, caches⟩ := accesses_pay_for_sweeps (κ := Nat) (ν := Nat)
  obtain ⟨fresh, built⟩ := ClockCache.exists_smallest (κ := Nat) (ν := Nat)
  exact ⟨tables 1 (Table.empty 1) rfl _, fresh, built, caches _ _ _ built _⟩

end BoundedCache
