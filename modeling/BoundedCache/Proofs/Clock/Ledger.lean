import BoundedCache.Proofs.Clock.Overflow
import BoundedCache.Proofs.Ledger

/-!
# The ledger of a clock cache

The counters of a clock cache are kept by its shards, its size is kept beside them. Both change
with what a request answers, and a sweep that finds a victim takes one from the size where its
shard counts an eviction.
-/

namespace BoundedCache.ClockCache

open Clock

variable {κ ν : Type}

/-- Clearing keeps all counters. -/
theorem counters_clear (cache : ClockCache κ ν) : cache.clear.counters = cache.counters := by
  rw [counters, counters, clear, Array.foldl_map]
  rfl

variable [BEq κ] [Hashable κ]

def books : Bookkeeping κ ν (ClockCache κ ν) (CacheRequest κ ν) (CacheOutcome κ ν)
    ClockCounters where
  serve := ClockCache.serve
  asked := .cached
  told outcome := .cached outcome.answer
  size := ClockCache.size
  counters := ClockCache.counters
  core := ClockCounters.core

/-- The cache is within its limit, and its shards hold what some map holds. -/
def Intact (cache : ClockCache κ ν) : Prop :=
  ∃ dials map, cache.Houses dials map ∧ cache.size ≤ cache.limit

variable {cache : ClockCache κ ν} {dials : Nat → Dial κ ν} {map : Std.HashMap κ ν}

/-- A request is served and accounted for. -/
def Accounted (cache : ClockCache κ ν) (request : CacheRequest κ ν) : Prop :=
  ∃ after outcome, books.Accounted Intact cache request after outcome

theorem accounted_of {request : CacheRequest κ ν} {after : ClockCache κ ν}
    {outcome : CacheOutcome κ ν} (evicted : Nat)
    (served : cache.serve request = .ok (after, outcome)) (kept : after.Intact)
    (counts : after.counters.core = cache.counters.core +
      (⟨.cached request, .cached outcome.answer, cache.size⟩ : Transaction κ ν).counted +
      { evictions := evicted })
    (balance : Transaction.Balances ⟨.cached request, .cached outcome.answer, cache.size⟩
      after.size evicted)
    (uncounted : (AccessRequest.cached request).isUncounted → after.counters = cache.counters) :
    cache.Accounted request :=
  ⟨after, outcome, served, kept, Accounts.of_counted evicted counts balance, uncounted⟩

variable [EquivBEq κ]

theorem Houses.accounted_get (houses : cache.Houses dials map) (within : cache.size ≤ cache.limit)
    (key : κ) : cache.Accounted (.get key) := by
  obtain ⟨shards, step, housesAfter⟩ := houses.get key
  have counts := houses.counters_update (houses.shardOf_lt _) housesAfter rfl
    (Dial.counters_get _ _ _)
  rw [Dial.answer_get, ← houses.mapped] at counts
  have served : cache.serve (.get key) =
      .ok ({ cache with shards }, { answer := .value map[key]? }) := by
    simp [ClockCache.serve, step]
  refine accounted_of 0 served ⟨_, _, housesAfter, within⟩ ?_ rfl (absurd · Bool.false_ne_true)
  rw [counts, Transaction.counted_get]
  rfl

variable [LawfulHashable κ]

theorem Houses.accounted_remove (houses : cache.Houses dials map)
    (within : cache.size ≤ cache.limit) (key : κ) : cache.Accounted (.remove key) := by
  obtain ⟨shards, step, housesAfter⟩ := houses.remove key
  have counts := houses.counters_update (houses.shardOf_lt _) housesAfter rfl
    (Dial.counters_remove _ _ _)
  rw [Dial.answer_remove, ← houses.mapped] at counts
  have served : cache.serve (.remove key) =
      .ok (⟨cache.geometry, shards, cache.limit,
        if map[key]?.isSome then cache.size - 1 else cache.size, cache.cursor⟩,
        { answer := .value map[key]? }) := by
    simp only [ClockCache.serve, step, ok_bind, pure_eq_ok]
  refine accounted_of 0 served ⟨_, _, housesAfter, ?_⟩ ?_ ?_ (absurd · Bool.false_ne_true)
  · dsimp only
    split <;> omega
  · rw [counts, Transaction.counted_remove]
    rfl
  · rw [Transaction.balances_remove]
    by_cases held : map[key]?.isSome
    · have positive := houses.size_pos held
      simp only [held, if_true]
      omega
    · simp [held]

/-- A put that evicts nothing. -/
theorem Houses.accounted_put_still (houses : cache.Houses dials map)
    (within : cache.size ≤ cache.limit) {key : κ}
    (still : map[key]?.isSome ∨ cache.size < cache.limit) (value : ν) :
    cache.Accounted (.put key value) := by
  obtain ⟨shards, size, step, fits, housesAfter⟩ := houses.put_still within key still value
  have counts := houses.counters_update (houses.shardOf_lt _) housesAfter rfl
    (Dial.counters_put _ _ _ _)
  rw [Dial.answer_put, ← houses.mapped] at counts
  have sizeAfter := housesAfter.mapSize
  simp only [Std.HashMap.size_insert, houses.mapSize, Std.HashMap.mem_iff_isSome_getElem?]
    at sizeAfter
  have served : cache.serve (.put key value) =
      .ok ({ cache with shards, size }, { answer := .value map[key]? }) := by
    simp [ClockCache.serve, step, PutResult.evictedKeys]
  refine accounted_of 0 served ⟨_, _, housesAfter, fits⟩ ?_ ?_ (absurd · Bool.false_ne_true)
  · rw [counts, Transaction.counted_put]
    rfl
  · rw [Transaction.balances_put, ← sizeAfter]
    split <;> rfl

/-- A put that overflows the cache counts an insertion and an eviction. -/
theorem Houses.accounted_put_full (houses : cache.Houses dials map)
    (full : cache.size = cache.limit) {key : κ} (isNew : map[key]? = none) (value : ν) :
    cache.Accounted (.put key value) := by
  obtain ⟨storing, _, housesStored, shards, size, cursor, eviction, _, evicts, step, filled, _,
    housesAfter⟩ := houses.put_full full isNew value
  obtain ⟨positions, trail, _⟩ := exists_trail _ evicts
  obtain ⟨work, adds, evicted, _⟩ := trail.counters housesStored
  have counts := houses.counters_update (houses.shardOf_lt _) housesStored rfl
    (Dial.counters_put _ _ _ _)
  rw [Dial.answer_put, ← houses.mapped, isNew] at counts
  have served : cache.serve (.put key value) =
      .ok ({ cache with shards, size, cursor }, ⟨.value none, [eviction.victim.key]⟩) := by
    simp [ClockCache.serve, step, PutResult.evictedKeys]
  refine accounted_of 1 served ⟨_, _, housesAfter, Nat.le_of_eq filled⟩ ?_ ?_
    (absurd · Bool.false_ne_true)
  · rw [adds, counts, ClockCounters.add_core, evicted]
    rfl
  · rw [Transaction.balances_put, full, ← filled]
    rfl

theorem Houses.accounted (houses : cache.Houses dials map) (within : cache.size ≤ cache.limit)
    (request : CacheRequest κ ν) : cache.Accounted request := by
  cases request with
  | get key => exact houses.accounted_get within key
  | put key value =>
      by_cases still : map[key]?.isSome ∨ cache.size < cache.limit
      · exact houses.accounted_put_still within still value
      · obtain ⟨missing, noRoom⟩ := not_or.1 still
        exact houses.accounted_put_full (by omega) (by simpa using missing) value
  | remove key => exact houses.accounted_remove within key
  | contains key =>
      have served : cache.serve (.contains key) =
          .ok (cache, { answer := .held (map.contains key) }) := by
        simp [ClockCache.serve, houses.contains key]
      exact accounted_of 0 served ⟨_, _, houses, within⟩ rfl rfl fun _ => rfl
  | size => exact accounted_of 0 rfl ⟨_, _, houses, within⟩ rfl rfl fun _ => rfl
  | clear =>
      have housesAfter := houses.clear
      have empty : cache.clear.size = 0 := by
        rw [← housesAfter.mapSize, Std.HashMap.size_empty]
      refine accounted_of 0 rfl ⟨_, _, housesAfter, empty ▸ Nat.zero_le _⟩ ?_ ?_
        fun _ => cache.counters_clear
      · rw [counters_clear]
        rfl
      · rw [empty]
        exact Transaction.balances_clear _

theorem Intact.accounted (intact : cache.Intact) (request : CacheRequest κ ν) :
    cache.Accounted request := by
  obtain ⟨dials, map, houses, within⟩ := intact
  exact houses.accounted within request

omit [EquivBEq κ] [LawfulHashable κ] in
/-- A new cache has counted nothing. -/
theorem intact_of_ofLimit {limit concurrency : Nat} {fresh : ClockCache κ ν}
    (built : ofLimit limit concurrency = .ok fresh) :
    fresh.Intact ∧ fresh.counters = 0 ∧ fresh.size = 0 := by
  obtain ⟨houses, empty, _⟩ := Houses.ofLimit built
  refine ⟨⟨_, _, houses, empty ▸ Nat.zero_le _⟩, ?_, empty⟩
  rw [houses.counters]
  exact Finset.sum_const_zero

theorem exact_of_ofLimit {limit concurrency : Nat} {fresh : ClockCache κ ν}
    (built : ofLimit limit concurrency = .ok fresh) : books.Exact fresh := by
  obtain ⟨intact, uncounted, empty⟩ := intact_of_ofLimit built
  exact books.exact_of_accounted (fun request kept => Intact.accounted kept request) intact
    (congrArg ClockCounters.core uncounted) empty

end BoundedCache.ClockCache
