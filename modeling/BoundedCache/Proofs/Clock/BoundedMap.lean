import BoundedCache.Proofs.Clock.Shards

/-!
# A clock cache is a bounded map

A put of a new key into a full cache makes the shards sweep in turn. The new entry has one visit,
so its own shard gives up an entry at its third turn at the latest, and the eviction succeeds with
exactly one victim. The cache therefore answers as a plain map from which the victims are deleted,
and is never larger than its limit. Before it is full it evicts nothing, so as many keys as the
limit allows fill a new cache.
-/

namespace BoundedCache.ClockCache

open Clock

/-- Every shard has a turn in each round of the cursor. -/
theorem exists_turn (cursor : Nat) {shard count : Nat} (inBounds : shard < count) :
    ∃ ahead < count, (cursor + ahead) % count = shard := by
  have split := Nat.div_add_mod cursor count
  have below := Nat.mod_lt cursor (Nat.zero_lt_of_lt inBounds)
  rcases Nat.lt_or_ge shard (cursor % count) with behind | notBehind
  · refine ⟨shard + count - cursor % count, by omega, ?_⟩
    have sum : cursor + (shard + count - cursor % count) =
        count * (cursor / count) + count + shard := by omega
    rw [sum, ← Nat.mul_succ, Nat.mul_add_mod, Nat.mod_eq_of_lt inBounds]
  · refine ⟨shard - cursor % count, by omega, ?_⟩
    have sum : cursor + (shard - cursor % count) = count * (cursor / count) + shard := by omega
    rw [sum, Nat.mul_add_mod, Nat.mod_eq_of_lt inBounds]

theorem evictWithin_of_le {κ ν : Type} {cache : ClockCache κ ν}
    (within : cache.size ≤ cache.limit) (fuel sweeps : Nat) :
    ClockCache.evictWithin fuel sweeps cache = .ok (cache, none) := by
  cases fuel with
  | zero => rfl
  | succ fuel => rw [ClockCache.evictWithin, if_pos within]

variable {κ ν : Type} [BEq κ] [Hashable κ] {cache : ClockCache κ ν} {dials : Nat → Dial κ ν}
  {map : Std.HashMap κ ν}

/-! ## Answers and sizes -/

/-- The outcome of a request to a cache with this limit that holds what the map holds. -/
structure AnswersAs (limit : Nat) (map : Std.HashMap κ ν) (request : CacheRequest κ ν)
    (outcome : CacheOutcome κ ν) : Prop where
  answer : outcome.answer = PlainMap.answer map request
  /-- A key that is added to a full cache evicts one key, and nothing else evicts any. -/
  evicted : outcome.evicted.length =
    if PlainMap.adds map request ∧ map.size = limit then 1 else 0
  /-- What is evicted was held, so deleting it makes the map smaller. -/
  held : ∀ key ∈ outcome.evicted, key ∈ PlainMap.next map request

/-- The size of a cache is the number of keys of the map and of entries in its shards, and within
the limit. -/
structure SizedAs (limit : Nat) (map : Std.HashMap κ ν) (cache : ClockCache κ ν) : Prop where
  size : cache.size = map.size
  shards : (cache.shards.toList.map Table.size).sum = map.size
  within : map.size ≤ limit

theorem Houses.sizedAs (houses : cache.Houses dials map) (within : cache.size ≤ cache.limit) :
    SizedAs cache.limit map cache :=
  ⟨houses.mapSize.symm, houses.sum_sizes.trans houses.mapSize.symm, houses.mapSize ▸ within⟩

/-! ## Sweeping in turn -/

/-- The position of the shard under the cursor. -/
def turn (cache : ClockCache κ ν) : Nat :=
  cache.cursor % cache.geometry.shards

theorem Houses.turn_lt (houses : cache.Houses dials map) : cache.turn < cache.geometry.shards :=
  Nat.mod_lt _ houses.shards_pos

/-- The number of shards is a power of two, so its mask selects the shard in turn. -/
theorem Houses.masked_cursor (houses : cache.Houses dials map) :
    cache.cursor &&& (cache.geometry.shards - 1) = cache.turn := by
  obtain ⟨bits, power⟩ := houses.power
  rw [turn, power, Nat.and_two_pow_sub_one_eq_mod]

theorem Houses.sweepNext_eq (houses : cache.Houses dials map) :
    let swept := (dials cache.turn).sweep
    ∃ shards,
      cache.sweepNext = .ok
        ({ cache with
          shards
          size := if swept.2.isSome then cache.size - 1 else cache.size
          cursor := cache.cursor + 1 }, swept.2) ∧
      shards.size = cache.shards.size ∧
      ∀ other (otherBound : other < shards.size),
        shards[other].Shows (Function.update dials cache.turn swept.1 other) := by
  intro swept
  obtain ⟨shards, step, sameSize, shows⟩ :=
    houses.onShard houses.turn_lt fun table shows => shows.sweep
  refine ⟨shards, ?_, sameSize, shows⟩
  rw [ClockCache.sweepNext, houses.masked_cursor, step]
  rfl

variable [EquivBEq κ]

/-- A sweep without a victim changes nothing that the cache holds. -/
theorem Houses.sweepNext_none (houses : cache.Houses dials map)
    (noVictim : (dials cache.turn).sweep.2 = none) :
    ∃ shards,
      cache.sweepNext = .ok ({ cache with shards, cursor := cache.cursor + 1 }, none) ∧
      ({ cache with shards, cursor := cache.cursor + 1 } : ClockCache κ ν).Houses
        (Function.update dials cache.turn (dials cache.turn).sweep.1) map := by
  obtain ⟨shards, step, sameSize, shows⟩ := houses.sweepNext_eq
  have inBounds := houses.turn_lt
  have valid := houses.valid _ inBounds
  have lengths := (dials cache.turn).length_sweep
  have names := (Dial.names_sweep (houses.routed _ inBounds)).1
  rw [noVictim] at step lengths
  refine ⟨shards, step, houses.replace inBounds _ sameSize shows (Dial.valid_sweep valid) names
    ?_ ?_ (fun _ _ => rfl) houses.mapSize⟩
  · rw [← lengths, Option.toList_none, List.length_nil, Nat.add_zero]
  · intro key same
    have spared : ∀ victim ∈ (dials cache.turn).sweep.2,
        ¬ victim.holds (HashCode.avalanched key) key := by simp [noVictim]
    rw [Dial.value?_sweep_other valid spared, houses.mapped, same]

variable [LawfulHashable κ]

/-- A victim is deleted from the map. -/
theorem Houses.sweepNext_victim (houses : cache.Houses dials map) {victim : Entry κ ν}
    (evicted : (dials cache.turn).sweep.2 = some victim) :
    victim.key ∈ map ∧ ∃ shards size,
      cache.sweepNext =
        .ok ({ cache with shards, size, cursor := cache.cursor + 1 }, some victim) ∧
      size + 1 = cache.size ∧
      ({ cache with shards, size, cursor := cache.cursor + 1 } : ClockCache κ ν).Houses
        (Function.update dials cache.turn (dials cache.turn).sweep.1) (map.erase victim.key) := by
  obtain ⟨shards, step, sameSize, shows⟩ := houses.sweepNext_eq
  have inBounds := houses.turn_lt
  have valid := houses.valid _ inBounds
  have lengths := (dials cache.turn).length_sweep
  have bound := length_le_total dials inBounds
  obtain ⟨names, victimNames⟩ := Dial.names_sweep (houses.routed _ inBounds)
  obtain ⟨victimHash, victimShard⟩ := victimNames victim evicted
  have held : victim.key ∈ map := by
    obtain ⟨old, member, sameKey, _⟩ := Dial.exists_of_victim evicted
    rw [sameKey]
    exact houses.mem_of_entry inBounds member
  rw [evicted] at step lengths
  rw [Option.toList_some, List.length_singleton] at lengths
  rw [houses.counted] at bound
  refine ⟨held, shards, cache.size - 1, step, by omega,
    houses.replace inBounds _ sameSize shows (Dial.valid_sweep valid) names (by omega)
      ?_ ?_ ?_⟩
  · intro key same
    rw [Std.HashMap.getElem?_erase]
    by_cases sameKey : victim.key == key
    · have holds : victim.holds (HashCode.avalanched key) key :=
        Entry.holds_iff.2 ⟨victimHash.trans (avalanched_congr sameKey), sameKey⟩
      rw [if_pos sameKey, Dial.value?_sweep_victim valid evicted holds]
    · have spared : ∀ other ∈ (dials cache.turn).sweep.2,
          ¬ other.holds (HashCode.avalanched key) key := by
        intro other found holds
        obtain rfl := Option.some.inj (evicted.symm.trans found)
        exact sameKey (Entry.holds_iff.1 holds).2
      rw [if_neg sameKey, Dial.value?_sweep_other valid spared, houses.mapped, same]
  · intro key elsewhere
    have other : (victim.key == key) = false :=
      beq_of_shardOf_ne (victimHash ▸ victimShard) elsewhere
    rw [Std.HashMap.getElem?_erase, other]
    simp
  · rw [Std.HashMap.size_erase, if_pos held, houses.mapSize]

/-! ## Evicting -/

omit [LawfulHashable κ] in
/-- After a sweep without a victim, an entry that is due comes nearer: its shard has lost a turn
or is closer to the cursor. -/
theorem Houses.due_next (houses : cache.Houses dials map) {shard rounds ahead : Nat}
    (found : (dials cache.turn).sweep.2 = none)
    (reaches : (cache.cursor + ahead) % cache.geometry.shards = shard)
    (due : (dials shard).Due (rounds + 1)) :
    ∃ roundsLeft nearer,
      (cache.cursor + 1 + nearer) % cache.geometry.shards = shard ∧
      cache.geometry.shards * roundsLeft + nearer < cache.geometry.shards * rounds + ahead ∧
      (Function.update dials cache.turn (dials cache.turn).sweep.1 shard).Due
        (roundsLeft + 1) := by
  have positive := houses.shards_pos
  cases ahead with
  | zero =>
      -- the shard had its turn, and the next one comes after all others
      have here : cache.turn = shard := reaches
      rw [here] at found ⊢
      rw [Function.update_self]
      have nearer := Dial.due_sweep (houses.valid shard (here ▸ houses.turn_lt)) due found
      cases rounds with
      | zero => exact absurd nearer (Dial.not_due_zero _)
      | succ rounds =>
          refine ⟨rounds, cache.geometry.shards - 1, ?_, ?_, nearer⟩
          · rw [Nat.add_assoc, Nat.add_sub_cancel' positive, Nat.add_mod_right]
            exact reaches
          · rw [Nat.mul_succ]
            omega
  | succ ahead =>
      refine ⟨rounds, ahead, ?_, by omega, ?_⟩
      · rw [Nat.add_assoc, Nat.add_comm 1]
        exact reaches
      · by_cases here : cache.turn = shard
        · rw [here, Function.update_self]
          have valid := houses.valid shard (here ▸ houses.turn_lt)
          exact (Dial.due_sweep valid due (here ▸ found)).mono (Nat.le_succ _)
        · rwa [Function.update_of_ne (Ne.symm here)]

/-- An entry that is due in a shard bounds the sweeps of an eviction: the shard has a turn once in
every round of the cursor. -/
theorem Houses.evictWithin {shard : Nat} (fuel : Nat) :
    ∀ {cache : ClockCache κ ν} {dials : Nat → Dial κ ν} {rounds ahead sweeps : Nat},
      cache.Houses dials map → cache.limit < cache.size →
      (cache.cursor + ahead) % cache.geometry.shards = shard →
      (dials shard).Due (rounds + 1) → cache.geometry.shards * rounds + ahead < fuel →
      ∃ shards size cursor eviction dials',
        ClockCache.evictWithin fuel sweeps cache =
          .ok ({ cache with shards, size, cursor }, some eviction) ∧
        size + 1 = cache.size ∧ eviction.victim.key ∈ map ∧
        ({ cache with shards, size, cursor } : ClockCache κ ν).Houses dials'
          (map.erase eviction.victim.key) := by
  induction fuel with
  | zero =>
      intro cache dials rounds ahead sweeps _ _ _ _ enough
      exact absurd enough (Nat.not_lt_zero _)
  | succ fuel inductionHypothesis =>
      intro cache dials rounds ahead sweeps houses overLimit reaches due enough
      have notWithin : ¬ cache.size ≤ cache.limit := Nat.not_le_of_lt overLimit
      simp only [ClockCache.evictWithin, if_neg notWithin]
      cases found : (dials cache.turn).sweep.2 with
      | some victim =>
          obtain ⟨held, shards, size, step, smaller, housesAfter⟩ := houses.sweepNext_victim found
          refine ⟨shards, size, _, ⟨victim, sweeps + 1⟩, _, ?_, smaller, held, housesAfter⟩
          rw [step]
          rfl
      | none =>
          obtain ⟨shards, step, housesAfter⟩ := houses.sweepNext_none found
          obtain ⟨roundsLeft, nearer, reachesNext, fewer, dueNext⟩ :=
            houses.due_next found reaches due
          have enoughLeft : cache.geometry.shards * roundsLeft + nearer < fuel := by omega
          simp only [step, ok_bind]
          exact inductionHypothesis housesAfter overLimit reachesNext dueNext enoughLeft

/-- A cache over its limit evicts one entry if some entry has one visit. -/
theorem Houses.evict (houses : cache.Houses dials map) (overLimit : cache.limit < cache.size)
    {shard : Nat} (inBounds : shard < cache.geometry.shards) (due : (dials shard).Due 3) :
    ∃ shards size cursor eviction dials',
      cache.evict = .ok ({ cache with shards, size, cursor }, some eviction) ∧
      size + 1 = cache.size ∧ eviction.victim.key ∈ map ∧
      ({ cache with shards, size, cursor } : ClockCache κ ν).Houses dials'
        (map.erase eviction.victim.key) := by
  obtain ⟨ahead, aheadBound, reaches⟩ := exists_turn cache.cursor inBounds
  refine houses.evictWithin cache.sweepBound overLimit reaches due ?_
  have visits : 3 ≤ 3 * maxVisits := by decide
  calc
    cache.geometry.shards * 2 + ahead < cache.geometry.shards * 3 := by omega
    _ ≤ cache.sweepBound := Nat.mul_le_mul_left _ visits

/-! ## Storing -/

/-- The shard of a key stores it; a new key is one more. -/
theorem Houses.store (houses : cache.Houses dials map) (key : κ) (value : ν) :
    let hash := HashCode.avalanched key
    let shard := cache.geometry.shardOf hash
    let size := if map[key]?.isSome then cache.size else cache.size + 1
    ∃ shards,
      ClockCache.onShard cache.shards shard (fun table => table.put hash key value) =
        .ok (shards, map[key]?) ∧
      ({ cache with shards, size } : ClockCache κ ν).Houses
        (Function.update dials shard ((dials shard).put hash key value).1)
        (map.insert key value) := by
  intro hash shard size
  have inBounds : shard < cache.geometry.shards := houses.shardOf_lt hash
  obtain ⟨shards, step, sameSize, shows⟩ := houses.onShard inBounds
    fun table shows => shows.put hash key value
  have lengths := (dials shard).length_put hash key value
  rw [Dial.answer_put, ← houses.mapped] at step lengths
  refine ⟨shards, step, houses.replace inBounds cache.cursor sameSize shows ?_ ?_ ?_ ?_ ?_ ?_⟩
  · exact Dial.valid_put (houses.valid _ inBounds)
  · exact Dial.names_put (houses.routed _ inBounds) ⟨rfl, rfl⟩
  · rw [lengths]
    by_cases held : map[key]?.isSome
    · simp [size, held]
    · simp only [size, held]
      simp
      omega
  · intro other same
    rw [Std.HashMap.getElem?_insert]
    by_cases sameKey : key == other
    · rw [if_pos sameKey, Dial.value?_put_same (avalanched_congr sameKey) sameKey]
    · rw [if_neg sameKey, Dial.value?_put_other fun both => sameKey both.2, houses.mapped, same]
  · intro other elsewhere
    rw [Std.HashMap.getElem?_insert, beq_of_shardOf_ne rfl elsewhere]
    simp
  · simp only [Std.HashMap.size_insert, Std.HashMap.mem_iff_isSome_getElem?, houses.mapSize, size]

/-- A put under a key that is held, or into a cache with room, evicts nothing. -/
theorem Houses.put_still (houses : cache.Houses dials map) (within : cache.size ≤ cache.limit)
    (key : κ) (still : map[key]?.isSome ∨ cache.size < cache.limit) (value : ν) :
    let hash := HashCode.avalanched key
    let shard := cache.geometry.shardOf hash
    ∃ shards size, cache.put key value = .ok ({ cache with shards, size }, ⟨map[key]?, none⟩) ∧
      size ≤ cache.limit ∧
      ({ cache with shards, size } : ClockCache κ ν).Houses
        (Function.update dials shard ((dials shard).put hash key value).1)
        (map.insert key value) := by
  obtain ⟨shards, step, stored⟩ := houses.store key value
  rw [ClockCache.put]
  simp only [step, ok_bind]
  cases found : map[key]? with
  | some previous =>
      rw [found] at stored
      exact ⟨shards, cache.size, rfl, within, stored⟩
  | none =>
      have fits : cache.size + 1 ≤ cache.limit := still.resolve_left (by simp [found])
      simp only [found, Option.isSome_none, Bool.false_eq_true, if_false] at stored ⊢
      refine ⟨shards, cache.size + 1, ?_, fits, stored⟩
      rw [ClockCache.evict, evictWithin_of_le fits]
      rfl

omit [EquivBEq κ] [LawfulHashable κ] in
/-- The entry for a new key makes the shard that stores it give up some entry soon. -/
theorem Houses.due_of_new (houses : cache.Houses dials map) {key : κ} (isNew : map[key]? = none)
    (value : ν) :
    let hash := HashCode.avalanched key
    ((dials (cache.geometry.shardOf hash)).put hash key value).1.Due 3 :=
  Dial.due_of_mem (Dial.mem_put_of_missing (houses.missing_of_new isNew) value) Nat.one_pos

/-- A put of a new key into a full cache stores it and then evicts one entry. -/
theorem Houses.put_full (houses : cache.Houses dials map) (full : cache.size = cache.limit)
    {key : κ} (isNew : map[key]? = none) (value : ν) :
    let hash := HashCode.avalanched key
    let shard := cache.geometry.shardOf hash
    ∃ storing : Array (Table κ ν),
      ClockCache.onShard cache.shards shard (fun table => table.put hash key value) =
        .ok (storing, none) ∧
      ({ cache with shards := storing, size := cache.size + 1 } : ClockCache κ ν).Houses
        (Function.update dials shard ((dials shard).put hash key value).1)
        (map.insert key value) ∧
      ∃ shards size cursor eviction dials',
        ({ cache with shards := storing, size := cache.size + 1 } : ClockCache κ ν).evict =
          .ok ({ cache with shards, size, cursor }, some eviction) ∧
        cache.put key value = .ok ({ cache with shards, size, cursor }, ⟨none, some eviction⟩) ∧
        size = cache.limit ∧ eviction.victim.key ∈ map.insert key value ∧
        ({ cache with shards, size, cursor } : ClockCache κ ν).Houses dials'
          ((map.insert key value).erase eviction.victim.key) := by
  obtain ⟨storing, step, stored⟩ := houses.store key value
  simp only [isNew, Option.isSome_none, Bool.false_eq_true, if_false] at stored
  have due := houses.due_of_new isNew value
  have overLimit : cache.limit < cache.size + 1 := by omega
  obtain ⟨shards, size, cursor, eviction, dials', evicts, smaller, held, housesAfter⟩ :=
    stored.evict overLimit (houses.shardOf_lt (HashCode.avalanched key))
      (by rw [Function.update_self]; exact due)
  dsimp only at evicts smaller housesAfter
  refine ⟨storing, isNew ▸ step, stored, shards, size, cursor, eviction, dials', evicts, ?_, ?_,
    held, housesAfter⟩
  · rw [ClockCache.put]
    simp only [step, ok_bind]
    simp only [isNew, Option.isSome_none, Bool.false_eq_true, if_false, evicts]
    rfl
  · omega

/-- A put into a cache within its limit keeps it within its limit. -/
theorem Houses.put (houses : cache.Houses dials map) (within : cache.size ≤ cache.limit)
    (key : κ) (value : ν) :
    ∃ shards size cursor result dials',
      cache.put key value = .ok ({ cache with shards, size, cursor }, result) ∧
      size ≤ cache.limit ∧
      AnswersAs cache.limit map (.put key value)
        { answer := .value result.previous, evicted := result.evictedKeys } ∧
      ({ cache with shards, size, cursor } : ClockCache κ ν).Houses dials'
        (result.evictedKeys.foldl Std.HashMap.erase (map.insert key value)) := by
  have sameSize := houses.mapSize
  have adds : PlainMap.adds map (.put key value) = !map[key]?.isSome := by
    rw [PlainMap.adds, Std.HashMap.contains_eq_isSome_getElem?]
  by_cases still : map[key]?.isSome ∨ cache.size < cache.limit
  · obtain ⟨shards, size, step, fits, housesAfter⟩ := houses.put_still within key still value
    have noEviction : ¬ (PlainMap.adds map (.put key value) ∧ map.size = cache.limit) := by
      rintro ⟨isNew, full⟩
      rcases still with held | room
      · simp [adds, held] at isNew
      · omega
    refine ⟨shards, size, cache.cursor, ⟨map[key]?, none⟩, _, step, fits, ?_, housesAfter⟩
    exact ⟨rfl, by rw [if_neg noEviction]; rfl, by simp [PutResult.evictedKeys]⟩
  · obtain ⟨missing, noRoom⟩ := not_or.1 still
    have isNew : map[key]? = none := by simpa using missing
    have full : cache.size = cache.limit := by omega
    obtain ⟨_, _, _, shards, size, cursor, eviction, dials', _, step, filled, held,
        housesAfter⟩ := houses.put_full full isNew value
    have evicts : PlainMap.adds map (.put key value) ∧ map.size = cache.limit :=
      ⟨by simp [adds, isNew], sameSize.trans full⟩
    refine ⟨shards, size, cursor, ⟨none, some eviction⟩, dials', step, Nat.le_of_eq filled, ?_,
      housesAfter⟩
    refine ⟨by rw [PlainMap.answer, isNew], by rw [if_pos evicts]; rfl, ?_⟩
    intro victim member
    rw [List.mem_singleton.1 member]
    exact held

/-! ## Filling a new cache -/

omit [EquivBEq κ] [LawfulHashable κ] [Hashable κ] [BEq κ] in
/-- A cache can be built if each shard gets enough buckets, but no more than can be selected. -/
theorem exists_ofLimit {limit concurrency : Nat}
    (enough : minBuckets ≤ Geometry.wantedBuckets limit (Geometry.shardCount concurrency))
    (fits : (Geometry.wantedBuckets limit (Geometry.shardCount concurrency)).nextPowerOfTwo <
      1 <<< 32) :
    ∃ fresh : ClockCache κ ν, ofLimit limit concurrency = .ok fresh := by
  have power := Nat.isPowerOfTwo_nextPowerOfTwo
    (Geometry.wantedBuckets limit (Geometry.shardCount concurrency))
  rw [ofLimit, Geometry.ofLimit, if_neg (Nat.not_lt.2 enough), ok_bind, Table.ofBuckets,
    if_pos (Table.isBucketCount_of_power power fits)]
  exact ⟨_, rfl⟩

omit [EquivBEq κ] [LawfulHashable κ] [Hashable κ] [BEq κ] in
/-- No smaller limit gives sixteen shards enough buckets. -/
theorem exists_smallest : ∃ fresh : ClockCache κ ν, ofLimit 1524 16 = .ok fresh :=
  exists_ofLimit (by decide +kernel) (by decide +kernel)

/-- Every entry has as many visits as its key, up to the most that it can hold. -/
def Visited (shards : Nat) (dials : Nat → Dial κ ν) (visits : κ → Nat) : Prop :=
  ∀ shard < shards, ∀ entry ∈ (dials shard).entries,
    entry.visits = min (visits entry.key) maxVisits

/-- The cache holds these entries, as many as its limit allows. -/
structure Filled (limit : Nat) (pairs : List (κ × ν)) (visits : κ → Nat) (cache : ClockCache κ ν)
    (dials : Nat → Dial κ ν) : Prop where
  houses : cache.Houses dials ((∅ : Std.HashMap κ ν).insertMany pairs)
  size : cache.size = limit
  isLimit : cache.limit = limit
  visited : Visited cache.geometry.shards dials visits

theorem Filled.contains {limit : Nat} {pairs : List (κ × ν)} {visits : κ → Nat}
    (filled : Filled limit pairs visits cache dials) (key : κ) :
    cache.contains key = .ok ((pairs.map Prod.fst).contains key) := by
  rw [filled.houses.contains, Std.HashMap.contains_insertMany_list, Std.HashMap.contains_empty,
    Bool.false_or]

omit [EquivBEq κ] [LawfulHashable κ] in
/-- A new entry has one visit. -/
theorem Houses.visited_put (houses : cache.Houses dials map)
    (once : Visited cache.geometry.shards dials fun _ => 1) {key : κ} (isNew : map[key]? = none)
    (value : ν) :
    let hash := HashCode.avalanched key
    let shard := cache.geometry.shardOf hash
    Visited cache.geometry.shards
      (Function.update dials shard ((dials shard).put hash key value).1) fun _ => 1 := by
  intro hash shard index inBounds entry member
  by_cases own : index = shard
  · rw [own, Function.update_self,
      Dial.entries_put_of_missing (houses.missing_of_new isNew)] at member
    rcases List.mem_append.1 member with old | new
    · exact once shard (own ▸ inBounds) entry old
    · rw [List.mem_singleton.1 new]
      rfl
  · rw [Function.update_of_ne own] at member
    exact once index inBounds entry member

/-- Puts of new keys that leave a cache within its limit store all of them and evict nothing. -/
theorem Houses.fill (pairs : List (κ × ν)) :
    ∀ {cache : ClockCache κ ν} {dials : Nat → Dial κ ν} {map : Std.HashMap κ ν},
      cache.Houses dials map → (Visited cache.geometry.shards dials fun _ => 1) →
      pairs.Pairwise (fun first second => (first.1 == second.1) = false) →
      (∀ pair ∈ pairs, map[pair.1]? = none) → cache.size + pairs.length ≤ cache.limit →
      ∃ final outcomes dials',
        serveAll ClockCache.serve cache (pairs.map fun pair => .put pair.1 pair.2) =
          .ok (final, outcomes) ∧
        final.Houses dials' (map.insertMany pairs) ∧ final.limit = cache.limit ∧
        Visited final.geometry.shards dials' fun _ => 1 := by
  induction pairs with
  | nil =>
      intro cache dials map houses once _ _ _
      exact ⟨cache, [], dials, rfl, by simpa using houses, rfl, once⟩
  | cons pair rest inductionHypothesis =>
      intro cache dials map houses once distinct areNew room
      obtain ⟨apart, distinctRest⟩ := List.pairwise_cons.1 distinct
      obtain ⟨isNew, restNew⟩ := List.forall_mem_cons.1 areNew
      rw [List.length_cons] at room
      obtain ⟨shards, size, step, _, housesMiddle⟩ :=
        houses.put_still (by omega) pair.1 (.inr (by omega)) pair.2
      have grows : (map.insert pair.1 pair.2).size ≤ map.size + 1 := Std.HashMap.size_insert_le
      rw [housesMiddle.mapSize, houses.mapSize] at grows
      dsimp only at grows
      -- The keys that follow are neither held already nor the one that was just put.
      have stillNew : ∀ other ∈ rest, (map.insert pair.1 pair.2)[other.1]? = none := by
        intro other member
        rw [Std.HashMap.getElem?_insert, apart other member, restNew other member]
        rfl
      obtain ⟨final, outcomes, dials', others, housesFinal, sameLimit, onceFinal⟩ :=
        inductionHypothesis housesMiddle (houses.visited_put once isNew pair.2) distinctRest
          stillNew (by dsimp only; omega)
      have first : cache.serve (.put pair.1 pair.2) =
          .ok ({ cache with shards, size }, { answer := .value map[pair.1]? }) := by
        simp [ClockCache.serve, step, PutResult.evictedKeys]
      rw [Std.HashMap.insertMany_cons]
      exact ⟨final, _, dials', serveAll_cons_of_ok first others, housesFinal, sameLimit, onceFinal⟩

/-- As many puts of distinct keys as the limit allows fill a new cache. -/
theorem exists_filled {limit concurrency : Nat} {fresh : ClockCache κ ν}
    (built : ofLimit limit concurrency = .ok fresh) {pairs : List (κ × ν)}
    (distinct : pairs.Pairwise fun first second => (first.1 == second.1) = false)
    (full : pairs.length = limit) :
    ∃ cache outcomes dials,
      serveAll ClockCache.serve fresh (pairs.map fun pair => .put pair.1 pair.2) =
        .ok (cache, outcomes) ∧
      Filled limit pairs (fun _ => 1) cache dials := by
  obtain ⟨houses, empty, freshLimit⟩ := Houses.ofLimit built
  have noEntry : Visited fresh.geometry.shards (fun _ => (Dial.empty : Dial κ ν)) fun _ => 1 :=
    fun _ _ _ member => absurd member List.not_mem_nil
  obtain ⟨cache, outcomes, dials, fills, housesCache, sameLimit, once⟩ :=
    houses.fill pairs noEntry distinct (fun _ _ => Std.HashMap.getElem?_empty) (by omega)
  have disjoint : ∀ other : κ, other ∈ (∅ : Std.HashMap κ ν) →
      (pairs.map Prod.fst).contains other = false :=
    fun other member => absurd member Std.HashMap.not_mem_empty
  have size : cache.size = limit := by
    rw [← housesCache.mapSize, Std.HashMap.size_insertMany_list distinct disjoint, full,
      Std.HashMap.size_empty, Nat.zero_add]
  exact ⟨cache, outcomes, dials, fills, housesCache, size, sameLimit.trans freshLimit, once⟩

/-- The first numbers fill a new cache, as many as its limit allows. -/
theorem exists_filled_range {limit concurrency : Nat} {fresh : ClockCache Nat Nat}
    (built : ofLimit limit concurrency = .ok fresh) :
    ∃ cache outcomes dials pairs,
      serveAll ClockCache.serve fresh ((List.range limit).map fun key => .put key key) =
        .ok (cache, outcomes) ∧
      Filled limit pairs (fun _ => 1) cache dials ∧ pairs.map Prod.fst = List.range limit := by
  let pairs := (List.range limit).map fun key => (key, key)
  have distinct : pairs.Pairwise fun first second => (first.1 == second.1) = false := by
    refine List.pairwise_map.2 (List.nodup_range.imp fun different => ?_)
    simpa using different
  obtain ⟨cache, outcomes, dials, fills, filled⟩ := exists_filled built distinct (by simp [pairs])
  rw [List.map_map] at fills
  exact ⟨cache, outcomes, dials, pairs, fills, filled, by simp [pairs, Function.comp_def]⟩

/-! ## Histories -/

/-- Every request is served as the map tells, and leaves a cache that follows the map. -/
theorem Houses.serve (houses : cache.Houses dials map) (within : cache.size ≤ cache.limit)
    (request : CacheRequest κ ν) :
    ∃ after outcome dials', cache.serve request = .ok (after, outcome) ∧
      AnswersAs cache.limit map request outcome ∧
      after.Houses dials' (PlainMap.follow map request outcome) ∧
      after.size ≤ after.limit ∧ after.limit = cache.limit := by
  cases request with
  | get key =>
      obtain ⟨shards, step, housesAfter⟩ := houses.get key
      refine ⟨_, { answer := .value map[key]? }, _, ?_, ⟨rfl, rfl, by simp⟩, housesAfter, within,
        rfl⟩
      simp [ClockCache.serve, step]
  | put key value =>
      obtain ⟨shards, size, cursor, result, dials', step, fits, answers, housesAfter⟩ :=
        houses.put within key value
      refine ⟨_, _, dials', ?_, answers, housesAfter, fits, rfl⟩
      simp [ClockCache.serve, step]
  | remove key =>
      obtain ⟨shards, step, housesAfter⟩ := houses.remove key
      refine ⟨_, { answer := .value map[key]? }, _, ?_, ⟨rfl, rfl, by simp⟩, housesAfter, ?_,
        rfl⟩
      · simp [ClockCache.serve, step]
      · have smaller : (map.erase key).size ≤ map.size := Std.HashMap.size_erase_le
        rw [housesAfter.mapSize, houses.mapSize] at smaller
        exact Nat.le_trans smaller within
  | contains key =>
      refine ⟨cache, { answer := .held (map.contains key) }, dials, ?_, ⟨rfl, rfl, by simp⟩,
        houses, within, rfl⟩
      simp [ClockCache.serve, houses.contains key]
  | size =>
      refine ⟨cache, { answer := .count cache.size }, dials, rfl, ⟨?_, rfl, by simp⟩, houses,
        within, rfl⟩
      rw [PlainMap.answer, houses.mapSize]
  | clear =>
      have housesAfter := houses.clear
      refine ⟨cache.clear, { answer := .cleared }, _, rfl, ⟨rfl, rfl, by simp⟩, housesAfter, ?_,
        rfl⟩
      rw [← housesAfter.mapSize, Std.HashMap.size_empty]
      exact Nat.zero_le _

/-- A history is served without a fault and leaves a cache that follows the map. -/
theorem Houses.run (requests : List (CacheRequest κ ν)) :
    ∀ {cache : ClockCache κ ν} {dials : Nat → Dial κ ν} {map : Std.HashMap κ ν},
      cache.Houses dials map → cache.size ≤ cache.limit →
      ∃ final outcomes dials', serveAll ClockCache.serve cache requests = .ok (final, outcomes) ∧
        final.Houses dials' (PlainMap.replay map requests outcomes) ∧
        final.size ≤ final.limit ∧ final.limit = cache.limit := by
  induction requests with
  | nil =>
      intro cache dials map houses within
      exact ⟨cache, [], dials, rfl, houses, within, rfl⟩
  | cons request rest inductionHypothesis =>
      intro cache dials map houses within
      obtain ⟨middle, outcome, middleDials, step, _, housesMiddle, fits, sameLimit⟩ :=
        houses.serve within request
      obtain ⟨final, outcomes, finalDials, others, housesFinal, finallyFits, finalLimit⟩ :=
        inductionHypothesis housesMiddle fits
      exact ⟨final, outcome :: outcomes, finalDials, serveAll_cons_of_ok step others,
        housesFinal, finallyFits, finalLimit.trans sameLimit⟩

/-- A cache answers every request as the plain map does from which its victims are deleted; its
size is that of the map and never above the limit, and only a new key in a full cache has a
victim, exactly one. -/
theorem is_bounded_map {limit concurrency : Nat} {fresh : ClockCache κ ν}
    (built : ofLimit limit concurrency = .ok fresh) (past : List (CacheRequest κ ν)) :
    ∃ cache outcomes, serveAll ClockCache.serve fresh past = .ok (cache, outcomes) ∧
      let map := PlainMap.replay ∅ past outcomes
      SizedAs limit map cache ∧
      ∀ request, ∃ after outcome, cache.serve request = .ok (after, outcome) ∧
        AnswersAs limit map request outcome ∧
        SizedAs limit (PlainMap.follow map request outcome) after := by
  obtain ⟨houses, empty, freshLimit⟩ := Houses.ofLimit built
  obtain ⟨cache, outcomes, dials, served, housesCache, within, sameLimit⟩ :=
    Houses.run past houses (by omega)
  have isLimit : cache.limit = limit := sameLimit.trans freshLimit
  refine ⟨cache, outcomes, served, isLimit ▸ housesCache.sizedAs within, fun request => ?_⟩
  obtain ⟨after, outcome, _, step, answers, housesAfter, fits, afterLimit⟩ :=
    housesCache.serve within request
  rw [isLimit] at answers afterLimit
  exact ⟨after, outcome, step, answers, afterLimit ▸ housesAfter.sizedAs fits⟩

/-- The smallest cache of sixteen shards is filled and overflows with the next key, for which it
evicts one. -/
theorem is_bounded_map_overflowing_cache :
    ∃ fresh cache : ClockCache Nat Nat, ∃ outcomes victim, ofLimit 1524 16 = .ok fresh ∧
      let past : List (CacheRequest Nat Nat) :=
        (List.range 1524).map (fun key => .put key key) ++ [.put 9999 7]
      serveAll ClockCache.serve fresh past = .ok (cache, outcomes) ∧
      outcomes.getLast? = some { answer := .value none, evicted := [victim] } ∧
      cache.size = 1524 ∧
      let map := PlainMap.replay ∅ past outcomes
      SizedAs 1524 map cache ∧
      ∀ request, ∃ after outcome, cache.serve request = .ok (after, outcome) ∧
        AnswersAs 1524 map request outcome ∧
        SizedAs 1524 (PlainMap.follow map request outcome) after := by
  obtain ⟨fresh, built⟩ := exists_smallest (κ := Nat) (ν := Nat)
  obtain ⟨full, fillOutcomes, dials, pairs, fills, filled, keys⟩ := exists_filled_range built
  have missing : full.contains 9999 = .ok false := by
    rw [filled.contains, keys]
    simp
  rw [filled.houses.contains] at missing
  obtain ⟨_, _, _, shards, size, cursor, eviction, _, _, step, isFull, _⟩ :=
    filled.houses.put_full (filled.size.trans filled.isLimit.symm)
      (Std.HashMap.getElem?_eq_none_of_contains_eq_false (Except.ok.inj missing)) 7
  have last : full.serve (.put 9999 7) =
      .ok ({ full with shards, size, cursor },
        { answer := .value none, evicted := [eviction.victim.key] }) := by
    simp [ClockCache.serve, step, PutResult.evictedKeys]
  have overflows : serveAll ClockCache.serve fresh
      ((List.range 1524).map (fun key => .put key key) ++ [.put 9999 7]) =
        .ok (_, fillOutcomes ++ [_]) :=
    serveAll_append fills (serveAll_cons_of_ok last rfl)
  obtain ⟨cache, outcomes, served, sized, serves⟩ :=
    is_bounded_map built ((List.range 1524).map (fun key => .put key key) ++ [.put 9999 7])
  cases overflows.symm.trans served
  exact ⟨fresh, _, _, eviction.victim.key, built, served, List.getLast?_concat,
    isFull.trans filled.isLimit, sized, serves⟩

end BoundedCache.ClockCache
