import BoundedCache.Proofs.Clock.Counting
import BoundedCache.Proofs.Clock.Newcomers
import Mathlib.Algebra.Order.BigOperators.Group.Finset

/-!
# How soon an overflow ends

A put of a new key into a full cache makes the shards sweep in cyclic order from the cursor until
one of them gives up an entry. The new entry has one visit and is due in its shard after three
turns, so there are three rounds at most. Three sweeps of a shard scan all its entries and nine
more, so the rounds together scan little more than the cache holds, however many visits the
entries have.
-/

namespace BoundedCache.ClockCache

open Clock

/-! ## Turns in cyclic order -/

/-- The shards that have the next turns, in cyclic order from the cursor. -/
def turnsFrom (shards cursor count : Nat) : List Nat :=
  (List.range count).map fun ahead => (cursor + ahead) % shards

section Turns

variable {shards cursor count : Nat}

theorem turnsFrom_succ :
    turnsFrom shards cursor (count + 1) =
      cursor % shards :: turnsFrom shards (cursor + 1) count := by
  rw [turnsFrom, List.range_succ_eq_map, List.map_cons, List.map_map, turnsFrom]
  refine congrArg _ (List.map_congr_left fun ahead _ => ?_)
  simp only [Function.comp_apply, Nat.succ_eq_add_one]
  rw [Nat.add_assoc cursor 1, Nat.add_comm 1]

theorem count_turnsFrom {shard : Nat} (inBounds : shard < shards) :
    (turnsFrom shards cursor count).count shard + turnsBefore shards shard cursor =
      turnsBefore shards shard (cursor + count) := by
  induction count generalizing cursor with
  | zero => simp [turnsFrom]
  | succ count inductionHypothesis =>
      have later := @inductionHypothesis (cursor + 1)
      rw [turnsBefore_succ inBounds, Nat.add_assoc cursor 1, Nat.add_comm 1 count] at later
      rw [turnsFrom_succ, List.count_cons, ← later]
      by_cases own : cursor % shards = shard <;> simp only [own, beq_iff_eq] <;> omega

theorem mem_turnsFrom_lt (positive : 0 < shards) {shard : Nat}
    (member : shard ∈ turnsFrom shards cursor count) : shard < shards := by
  obtain ⟨ahead, _, rfl⟩ := List.mem_map.1 member
  exact Nat.mod_lt _ positive

/-- No shard has more than three turns in three rounds. -/
theorem count_turnsFrom_le (positive : 0 < shards) (few : count ≤ 3 * shards) (shard : Nat) :
    (turnsFrom shards cursor count).count shard ≤ 3 := by
  by_cases inBounds : shard < shards
  · have turns : _ = turnsBefore shards shard (cursor + count) := count_turnsFrom inBounds
    have threeRounds : cursor + count ≤ cursor + shards * 3 := by omega
    have within := turnsBefore_mono inBounds threeRounds
    rw [turnsBefore_three_rounds positive] at within
    omega
  · rw [List.count_eq_zero.2 fun member => inBounds (mem_turnsFrom_lt positive member)]
    exact Nat.zero_le 3

/-- What is spent in turns of which no shard has more than three is at most three times what all
shards spend in one turn each. -/
theorem sum_turns_le {positions : List Nat} (inBounds : ∀ shard ∈ positions, shard < shards)
    (thrice : ∀ shard, positions.count shard ≤ 3) (spent : Nat → Nat) :
    (positions.map spent).sum ≤ ∑ shard ∈ Finset.range shards, 3 * spent shard := by
  have among : positions.toFinset ⊆ Finset.range shards := fun shard member =>
    Finset.mem_range.2 (inBounds shard (List.mem_toFinset.1 member))
  calc
    (positions.map spent).sum
      = ∑ shard ∈ positions.toFinset, positions.count shard • spent shard :=
        Finset.sum_list_map_count positions spent
    _ ≤ ∑ shard ∈ positions.toFinset, 3 * spent shard :=
        Finset.sum_le_sum fun shard _ => Nat.mul_le_mul_right _ (thrice shard)
    _ ≤ ∑ shard ∈ Finset.range shards, 3 * spent shard :=
        Finset.sum_le_sum_of_subset among

end Turns

/-! ## Trails of sweeps -/

/-- The position of the shard that sweeps next. -/
def sweepPosition {κ ν : Type} (cache : ClockCache κ ν) : Nat :=
  cache.cursor &&& (cache.geometry.shards - 1)

/-- Sweeps one after another while the cache is over its limit, each at its position. Only the last
one finds a victim. -/
inductive Trail {κ ν : Type} : ClockCache κ ν → List Nat → ClockCache κ ν → Entry κ ν → Prop where
  | last {cache after : ClockCache κ ν} {victim : Entry κ ν}
      (overLimit : cache.limit < cache.size) (step : cache.sweepNext = .ok (after, some victim)) :
      Trail cache [cache.sweepPosition] after victim
  | next {cache middle after : ClockCache κ ν} {positions : List Nat} {victim : Entry κ ν}
      (overLimit : cache.limit < cache.size) (step : cache.sweepNext = .ok (middle, none))
      (rest : Trail middle positions after victim) :
      Trail cache (cache.sweepPosition :: positions) after victim

section Trail

variable {κ ν : Type} {cache after : ClockCache κ ν} {positions : List Nat} {victim : Entry κ ν}
  {eviction : Eviction κ ν}

/-- An eviction follows a trail of sweeps. -/
theorem exists_trail (fuel : Nat) :
    ∀ {cache : ClockCache κ ν} {sweeps : Nat},
      ClockCache.evictWithin fuel sweeps cache = .ok (after, some eviction) →
      ∃ positions, Trail cache positions after eviction.victim ∧
        eviction.sweeps = sweeps + positions.length := by
  induction fuel with
  | zero =>
      intro cache sweeps evicts
      cases evicts
  | succ fuel inductionHypothesis =>
      intro cache sweeps evicts
      rw [ClockCache.evictWithin] at evicts
      split at evicts
      · cases evicts
      · rename_i overLimit
        cases step : cache.sweepNext with
        | error fault =>
            rw [step] at evicts
            cases evicts
        | ok outcome =>
            obtain ⟨middle, found⟩ := outcome
            rw [step, ok_bind] at evicts
            cases found with
            | some victim =>
                cases evicts
                exact ⟨_, .last (Nat.lt_of_not_le overLimit) step, rfl⟩
            | none =>
                obtain ⟨positions, rest, sweepsMade⟩ := inductionHypothesis evicts
                refine ⟨_, .next (Nat.lt_of_not_le overLimit) step rest, ?_⟩
                rw [List.length_cons]
                omega

/-- An eviction that may make enough sweeps follows the trail to its end. -/
theorem Trail.evictWithin_eq (trail : Trail cache positions after victim) :
    ∀ {fuel sweeps : Nat}, positions.length ≤ fuel →
      ClockCache.evictWithin fuel sweeps cache =
        .ok (after, some ⟨victim, sweeps + positions.length⟩) := by
  induction trail with
  | last overLimit step =>
      intro fuel sweeps enough
      cases fuel with
      | zero => contradiction
      | succ fuel =>
          rw [ClockCache.evictWithin, if_neg (Nat.not_le_of_lt overLimit), step]
          rfl
  | next overLimit step rest inductionHypothesis =>
      intro fuel sweeps enough
      cases fuel with
      | zero => contradiction
      | succ fuel =>
          rw [ClockCache.evictWithin, if_neg (Nat.not_le_of_lt overLimit), step]
          simp only [ok_bind]
          rw [inductionHypothesis (Nat.le_of_succ_le_succ enough), List.length_cons]
          congr 4
          omega

end Trail

variable {κ ν : Type} [BEq κ] [Hashable κ] [EquivBEq κ] {cache middle after : ClockCache κ ν}
  {dials : Nat → Dial κ ν} {map : Std.HashMap κ ν} {positions : List Nat} {victim : Entry κ ν}

/-! ## Single sweeps -/

omit [EquivBEq κ] in
/-- A sweep finds what the dial in turn gives up. -/
theorem Houses.found_of_sweepNext (houses : cache.Houses dials map) {found : Option (Entry κ ν)}
    (step : cache.sweepNext = .ok (after, found)) : (dials cache.turn).sweep.2 = found := by
  obtain ⟨shards, sweeps, _⟩ := houses.sweepNext_eq
  rw [sweeps] at step
  exact congrArg Prod.snd (Except.ok.inj step)

/-- After a sweep without a victim only the cursor, the order and the visits have changed. -/
theorem Houses.of_sweepNext_none (houses : cache.Houses dials map)
    (step : cache.sweepNext = .ok (middle, none)) :
    (dials cache.turn).sweep.2 = none ∧
      (∃ shards, middle = { cache with shards, cursor := cache.cursor + 1 }) ∧
      middle.Houses (Function.update dials cache.turn (dials cache.turn).sweep.1) map := by
  have noVictim := houses.found_of_sweepNext step
  obtain ⟨shards, sweeps, housesMiddle⟩ := houses.sweepNext_none noVictim
  rw [sweeps] at step
  cases step
  exact ⟨noVictim, ⟨shards, rfl⟩, housesMiddle⟩

theorem Houses.of_sweepNext_some [LawfulHashable κ] (houses : cache.Houses dials map)
    (step : cache.sweepNext = .ok (after, some victim)) :
    victim.key ∈ map ∧
      (∃ shards size, after = { cache with shards, size, cursor := cache.cursor + 1 } ∧
        size + 1 = cache.size) ∧
      after.Houses (Function.update dials cache.turn (dials cache.turn).sweep.1)
        (map.erase victim.key) := by
  obtain ⟨held, shards, size, sweeps, smaller, housesAfter⟩ :=
    houses.sweepNext_victim (houses.found_of_sweepNext step)
  rw [sweeps] at step
  cases step
  exact ⟨held, ⟨shards, size, rfl, smaller⟩, housesAfter⟩

/-! ## What holds along a trail -/

variable [LawfulHashable κ]

/-- The sweeps are made in cyclic order, and the cursor moves on once for each. -/
theorem Trail.cyclic (trail : Trail cache positions after victim) :
    ∀ {dials : Nat → Dial κ ν}, cache.Houses dials map →
      positions = turnsFrom cache.geometry.shards cache.cursor positions.length ∧
      after.cursor = cache.cursor + positions.length := by
  induction trail with
  | @last cache after victim overLimit step =>
      intro dials houses
      obtain ⟨_, ⟨shards, size, rfl, _⟩, _⟩ := houses.of_sweepNext_some step
      exact ⟨congrArg (fun position => [position]) houses.masked_cursor, rfl⟩
  | @next cache middle after positions victim overLimit step rest inductionHypothesis =>
      intro dials houses
      obtain ⟨_, ⟨shards, rfl⟩, housesMiddle⟩ := houses.of_sweepNext_none step
      obtain ⟨inOrder, moved⟩ := inductionHypothesis housesMiddle
      have here : cache.sweepPosition = cache.cursor % cache.geometry.shards :=
        houses.masked_cursor
      refine ⟨?_, ?_⟩
      · rw [List.length_cons, turnsFrom_succ, here, ← inOrder]
      · rw [moved, List.length_cons]
        dsimp only
        omega

omit [LawfulHashable κ] in
/-- An entry that is due bounds the number of sweeps. -/
theorem Trail.length_le {shard : Nat} (trail : Trail cache positions after victim) :
    ∀ {dials : Nat → Dial κ ν} {rounds ahead : Nat}, cache.Houses dials map →
      (cache.cursor + ahead) % cache.geometry.shards = shard → (dials shard).Due (rounds + 1) →
      positions.length ≤ cache.geometry.shards * rounds + ahead + 1 := by
  induction trail with
  | last _ _ =>
      intro dials rounds ahead _ _ _
      exact Nat.le_add_left 1 _
  | next overLimit step rest inductionHypothesis =>
      intro dials rounds ahead houses reaches due
      obtain ⟨noVictim, ⟨shards, rfl⟩, housesMiddle⟩ := houses.of_sweepNext_none step
      obtain ⟨roundsLeft, nearer, reachesNext, fewer, dueNext⟩ :=
        houses.due_next noVictim reaches due
      have others := inductionHypothesis housesMiddle reachesNext dueNext
      rw [List.length_cons]
      dsimp only at others
      omega

/-- The work of the sweeps evicts one entry and scans no more than their budgets allow. -/
theorem Trail.counters (trail : Trail cache positions after victim) :
    ∀ {dials : Nat → Dial κ ν}, cache.Houses dials map →
      ∃ work : ClockCounters, after.counters = cache.counters + work ∧
        work.core = { evictions := 1 } ∧
        work.scanned ≤ (positions.map fun shard => (dials shard).budget).sum := by
  induction trail with
  | @last cache after victim overLimit step =>
      intro dials houses
      have found := houses.found_of_sweepNext step
      obtain ⟨_, ⟨shards, size, rfl, _⟩, housesAfter⟩ := houses.of_sweepNext_some step
      obtain ⟨work, adds, core, scans⟩ := (dials cache.turn).counters_sweep
      have here : cache.sweepPosition = cache.turn := houses.masked_cursor
      refine ⟨work, houses.counters_update houses.turn_lt housesAfter rfl adds, ?_, ?_⟩
      · rw [core, found]
        rfl
      · simpa [here] using scans
  | @next cache middle after positions victim overLimit step rest inductionHypothesis =>
      intro dials houses
      obtain ⟨noVictim, ⟨shards, rfl⟩, housesMiddle⟩ := houses.of_sweepNext_none step
      obtain ⟨work, adds, core, scans⟩ := (dials cache.turn).counters_sweep
      obtain ⟨later, laterAdds, laterCore, laterScans⟩ := inductionHypothesis housesMiddle
      have here : cache.sweepPosition = cache.turn := houses.masked_cursor
      -- no entry is lost, so every shard keeps its budget
      have sameBudgets : (fun shard =>
          (Function.update dials cache.turn (dials cache.turn).sweep.1 shard).budget) =
          fun shard => (dials shard).budget := by
        have lengths := (dials cache.turn).length_sweep
        rw [noVictim, Option.toList_none, List.length_nil, Nat.add_zero] at lengths
        funext shard
        by_cases own : shard = cache.turn
        · rw [own, Function.update_self, Dial.budget, lengths, Dial.budget]
        · rw [Function.update_of_ne own]
      rw [sameBudgets] at laterScans
      refine ⟨work + later, ?_, ?_, ?_⟩
      · rw [laterAdds, houses.counters_update houses.turn_lt housesMiddle rfl adds, add_assoc]
      · rw [ClockCounters.add_core, core, laterCore, noVictim]
        rfl
      · rw [List.map_cons, List.sum_cons, here, ClockCounters.add_scanned]
        exact Nat.add_le_add scans laterScans

/-! ## Three rounds -/

/-- Sweeps in cyclic order from the cursor, in three rounds at most, so that no shard sweeps more
than three times. -/
structure ThreeRounds (shards cursor : Nat) (positions : List Nat) : Prop where
  cyclic : positions = turnsFrom shards cursor positions.length
  few : positions.length ≤ 3 * shards
  each : ∀ shard, positions.count shard ≤ 3

/-- An entry that is due after three turns of its shard ends the sweeps in three rounds. -/
theorem Trail.threeRounds (trail : Trail cache positions after victim)
    (houses : cache.Houses dials map) {shard : Nat} (inBounds : shard < cache.geometry.shards)
    (due : (dials shard).Due 3) :
    ThreeRounds cache.geometry.shards cache.cursor positions ∧
      after.cursor = cache.cursor + positions.length := by
  obtain ⟨inOrder, moved⟩ := trail.cyclic houses
  obtain ⟨ahead, aheadBound, reaches⟩ := exists_turn cache.cursor inBounds
  have bounded := trail.length_le houses reaches due
  have few : positions.length ≤ 3 * cache.geometry.shards := by omega
  refine ⟨⟨inOrder, few, ?_⟩, moved⟩
  rw [inOrder]
  exact count_turnsFrom_le houses.shards_pos few

omit [BEq κ] [Hashable κ] [EquivBEq κ] [LawfulHashable κ] in
theorem sum_budgets_le (dials : Nat → Dial κ ν) (shards : Nat) :
    ∑ shard ∈ Finset.range shards, 3 * (dials shard).budget ≤ total dials shards + 9 * shards := by
  induction shards with
  | zero => exact Nat.le_refl 0
  | succ shards inductionHypothesis =>
      rw [Finset.sum_range_succ, total_succ, Dial.budget]
      omega

/-- Three rounds scan all entries and nine more for each shard. -/
theorem Trail.work_le (trail : Trail cache positions after victim)
    (houses : cache.Houses dials map)
    (inRounds : ThreeRounds cache.geometry.shards cache.cursor positions) :
    ∃ work : ClockCounters, after.counters = cache.counters + work ∧
      work.core = { evictions := 1 } ∧
      work.scanned ≤ cache.size + 9 * cache.geometry.shards := by
  obtain ⟨work, adds, evicted, scans⟩ := trail.counters houses
  have inBounds : ∀ shard ∈ positions, shard < cache.geometry.shards := by
    intro shard member
    rw [inRounds.cyclic] at member
    exact mem_turnsFrom_lt houses.shards_pos member
  refine ⟨work, adds, evicted, ?_⟩
  calc
    work.scanned ≤ (positions.map fun shard => (dials shard).budget).sum := scans
    _ ≤ ∑ shard ∈ Finset.range cache.geometry.shards, 3 * (dials shard).budget :=
        sum_turns_le inBounds inRounds.each _
    _ ≤ total dials cache.geometry.shards + 9 * cache.geometry.shards := sum_budgets_le _ _
    _ = cache.size + 9 * cache.geometry.shards := by rw [houses.counted]

/-! ## Full caches -/

/-- A put of a new key that overflows the cache: it stores the entry, and then the shards sweep in
three rounds at most until one entry is evicted. -/
structure Overflow (cache : ClockCache κ ν) (key : κ) (value : ν) (after : ClockCache κ ν)
    (eviction : Eviction κ ν) (storing : Array (Table κ ν)) (positions : List Nat) : Prop where
  put : cache.put key value = .ok (after, ⟨none, some eviction⟩)
  stored : ClockCache.onShard cache.shards
    (cache.geometry.shardOf (HashCode.avalanched key))
    (fun table => table.put (HashCode.avalanched key) key value) = .ok (storing, none)
  /-- The sweeps start from the cache that stores the new entry. -/
  trail : Trail { cache with shards := storing, size := cache.size + 1 } positions after
    eviction.victim
  sweeps : eviction.sweeps = positions.length
  rounds : ThreeRounds cache.shardCount cache.cursor positions
  /-- More sweeps than those of three rounds make no difference, if they are allowed. -/
  ends : ∀ fuel, 3 * cache.shardCount ≤ fuel →
    ClockCache.evictWithin fuel 0 { cache with shards := storing, size := cache.size + 1 } =
      .ok (after, some eviction)
  size : after.size = cache.limit
  limit : after.limit = cache.limit
  cursor : after.cursor = cache.cursor + eviction.sweeps
  evictions : after.counters.core.evictions = cache.counters.core.evictions + 1
  /-- The victim is the new key or was held before. -/
  victim : key == eviction.victim.key ∨ cache.contains eviction.victim.key = .ok true
  /-- Every other key is held if it was held before or is the new one. -/
  others : ∀ other held, cache.contains other = .ok held →
    after.contains other = .ok (!(eviction.victim.key == other) && (key == other || held))
  scanned : after.counters.scanned ≤
    cache.counters.scanned + (cache.limit + 1 + 9 * cache.shardCount)

theorem Houses.overflow (houses : cache.Houses dials map) (full : cache.size = cache.limit)
    {key : κ} (isNew : map[key]? = none) (value : ν) :
    ∃ after eviction storing positions,
      Overflow cache key value after eviction storing positions := by
  have inBounds := houses.shardOf_lt (HashCode.avalanched key)
  have sameCount : cache.shardCount = cache.geometry.shards := houses.sized
  obtain ⟨storing, stores, housesStored, shards, size, cursor, eviction, _, evicts, step, filled,
    held, housesAfter⟩ := houses.put_full full isNew value
  obtain ⟨positions, trail, sweepsMade⟩ := exists_trail _ evicts
  rw [Nat.zero_add] at sweepsMade
  -- the new entry is due in its shard after three turns
  obtain ⟨inRounds, moved⟩ := trail.threeRounds housesStored inBounds
    (by rw [Function.update_self]; exact houses.due_of_new isNew value)
  obtain ⟨work, sweepsCount, evicted, scans⟩ := trail.work_le housesStored inRounds
  have putCounts := houses.counters_update inBounds housesStored rfl (Dial.counters_put _ _ _ _)
  rw [putCounts] at sweepsCount
  refine ⟨{ cache with shards, size, cursor }, eviction, storing, positions, ?_⟩
  exact
    { put := step
      stored := stores
      trail := trail
      sweeps := sweepsMade
      rounds := sameCount ▸ inRounds
      ends := fun fuel enough => by
        rw [trail.evictWithin_eq (inRounds.few.trans (sameCount ▸ enough)), Nat.zero_add,
          ← sweepsMade]
      size := filled
      limit := rfl
      cursor := sweepsMade ▸ moved
      evictions := by
        rw [sweepsCount, ClockCounters.add_core, evicted]
        rfl
      victim := by
        rw [houses.contains]
        exact (Std.HashMap.mem_insert.1 held).imp_right fun inMap =>
          congrArg _ (Std.HashMap.mem_iff_contains.1 inMap)
      others := fun other wasHeld answer => by
        rw [houses.contains] at answer
        rw [housesAfter.contains, Std.HashMap.contains_erase, Std.HashMap.contains_insert,
          Except.ok.inj answer]
      scanned := by
        rw [sweepsCount, sameCount, ← full]
        exact Nat.add_le_add_left scans _ }

/-- Whatever a cache has served, a put of a new key when it is full ends after three rounds of its
shards at most. It leaves the cache full, evicts exactly one entry, moves the cursor on by one for
each sweep, and scans little more than the cache holds. -/
theorem overflow_ends_within_three_rounds {limit concurrency : Nat}
    {fresh cache : ClockCache κ ν} {past : List (CacheRequest κ ν)}
    {outcomes : List (CacheOutcome κ ν)} (built : ofLimit limit concurrency = .ok fresh)
    (reached : serveAll ClockCache.serve fresh past = .ok (cache, outcomes))
    (full : cache.size = limit) {key : κ} (isNew : cache.contains key = .ok false) (value : ν) :
    cache.limit = limit ∧ ∃ after eviction storing positions,
      Overflow cache key value after eviction storing positions := by
  obtain ⟨houses, empty, freshLimit⟩ := Houses.ofLimit built
  obtain ⟨final, answers, dials, served, housesCache, _, sameLimit⟩ :=
    Houses.run past houses (by omega)
  rw [served] at reached
  cases reached
  have isLimit : cache.limit = limit := sameLimit.trans freshLimit
  have missing : (PlainMap.replay (∅ : Std.HashMap κ ν) past outcomes)[key]? = none := by
    rw [housesCache.contains] at isNew
    exact Std.HashMap.getElem?_eq_none_of_contains_eq_false (Except.ok.inj isNew)
  exact ⟨isLimit, housesCache.overflow (full.trans isLimit.symm) missing value⟩

/-- The smallest cache of sixteen shards is filled and overflows with the next key. -/
theorem overflow_ends_within_three_rounds_smallest_cache :
    ∃ fresh cache : ClockCache Nat Nat, ∃ outcomes,
      ofLimit 1524 16 = .ok fresh ∧
      serveAll ClockCache.serve fresh ((List.range 1524).map fun key => .put key key) =
        .ok (cache, outcomes) ∧
      cache.size = 1524 ∧ cache.contains 9999 = .ok false ∧
      cache.limit = 1524 ∧ ∃ after eviction storing positions,
        Overflow cache 9999 7 after eviction storing positions := by
  obtain ⟨fresh, built⟩ := exists_smallest (κ := Nat) (ν := Nat)
  obtain ⟨cache, outcomes, _, _, fills, filled, keys⟩ := exists_filled_range built
  have isNew : cache.contains 9999 = .ok false := by
    rw [filled.contains, keys]
    simp
  exact ⟨fresh, cache, outcomes, built, fills, filled.size, isNew,
    overflow_ends_within_three_rounds built fills filled.size isNew 7⟩

end BoundedCache.ClockCache
