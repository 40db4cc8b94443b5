import BoundedCache.Proofs.Clock.BoundedMap
import BoundedCache.Proofs.Clock.Precedence
import BoundedCache.Proofs.Clock.Requests

/-!
# What a full cache evicts for a new key

A put of a new key into a full cache stores the entry first and evicts one afterwards. The new
entry has one visit and is the last that the hand of its shard meets. So it stays if its shard
holds another entry with one visit. But an eviction ends after three rounds of the shards, and
where all other entries have more than three visits these rounds spare them, and it is the new
entry that is evicted.
-/

namespace BoundedCache.ClockCache

open Clock

/-! ## Turns of a shard -/

/-- How many of the first `cursor` turns are turns of the shard: one in each round that is over,
and one more if the shard had its turn in this round. -/
def turnsBefore (shards shard cursor : Nat) : Nat :=
  cursor / shards + if shard < cursor % shards then 1 else 0

section Turns

variable {shards shard cursor final : Nat}

theorem turnsBefore_succ (inBounds : shard < shards) (cursor : Nat) :
    turnsBefore shards shard (cursor + 1) =
      turnsBefore shards shard cursor + if cursor % shards = shard then 1 else 0 := by
  have split := Nat.div_add_mod cursor shards
  have below := Nat.mod_lt cursor (Nat.zero_lt_of_lt inBounds)
  rw [turnsBefore, turnsBefore]
  rcases Nat.lt_or_eq_of_le (Nat.succ_le_of_lt below) with inRound | lastOfRound
  · have next : cursor + 1 = shards * (cursor / shards) + (cursor % shards + 1) := by omega
    rw [next, Nat.mul_add_div (Nat.zero_lt_of_lt inBounds), Nat.div_eq_of_lt inRound,
      Nat.mul_add_mod, Nat.mod_eq_of_lt inRound]
    split <;> split <;> split <;> omega
  · have next : cursor + 1 = shards * (cursor / shards + 1) := by
      rw [Nat.mul_succ]
      omega
    rw [next, Nat.mul_div_cancel_left _ (Nat.zero_lt_of_lt inBounds), Nat.mul_mod_right]
    split <;> split <;> split <;> omega

theorem turnsBefore_mono (inBounds : shard < shards) (later : cursor ≤ final) :
    turnsBefore shards shard cursor ≤ turnsBefore shards shard final := by
  induction later with
  | refl => exact Nat.le_refl _
  | step _ inductionHypothesis =>
      rw [Nat.succ_eq_add_one, turnsBefore_succ inBounds]
      exact Nat.le_add_right_of_le inductionHypothesis

/-- Three rounds of the shards are three turns of each. -/
theorem turnsBefore_three_rounds (positive : 0 < shards) (shard cursor : Nat) :
    turnsBefore shards shard (cursor + shards * 3) = turnsBefore shards shard cursor + 3 := by
  rw [turnsBefore, turnsBefore, Nat.add_mul_div_left _ _ positive, Nat.add_mul_mod_self_left]
  omega

variable {κ ν : Type} [BEq κ] {geometry : Geometry} {dials : Nat → Dial κ ν} {key : κ}

/-- Every entry but those for the key has more visits left than its shard has turns before the
cursor reaches `final`. -/
def Outlasts (geometry : Geometry) (dials : Nat → Dial κ ν) (key : κ) (cursor final : Nat) :
    Prop :=
  ∀ shard < geometry.shards, ∀ entry ∈ (dials shard).entries, entry.key == key ∨
    turnsBefore geometry.shards shard final <
      entry.visits + turnsBefore geometry.shards shard cursor

/-- Entries outlast a sweep of a shard, which is one of its turns. -/
theorem Outlasts.sweep (outlasts : Outlasts geometry dials key cursor final) :
    Outlasts geometry
      (Function.update dials (cursor % geometry.shards) (dials (cursor % geometry.shards)).sweep.1)
      key (cursor + 1) final := by
  intro shard inBounds entry member
  by_cases own : cursor % geometry.shards = shard
  · rw [own, Function.update_self] at member
    obtain ⟨old, oldMember, sameKey, loses⟩ := Dial.exists_of_mem_sweep member
    rw [turnsBefore_succ inBounds, if_pos own, sameKey]
    exact (outlasts shard inBounds old oldMember).imp_right fun enough => by omega
  · rw [Function.update_of_ne (Ne.symm own)] at member
    rw [turnsBefore_succ inBounds, if_neg own]
    exact (outlasts shard inBounds entry member).imp_right fun enough => by omega

end Turns

variable {κ ν : Type} [BEq κ] [Hashable κ] [EquivBEq κ] {cache after : ClockCache κ ν}
  {dials : Nat → Dial κ ν} {map : Std.HashMap κ ν} {eviction : Eviction κ ν}

/-! ## The last sweep of an eviction -/

/-- What every sweep without a victim keeps still holds before the sweep that finds the victim. -/
theorem Houses.exists_last_sweep {Kept : ClockCache κ ν → (Nat → Dial κ ν) → Prop}
    (keeps : ∀ {cache : ClockCache κ ν} {dials : Nat → Dial κ ν} (shards : Array (Table κ ν)),
      cache.Houses dials map → (dials cache.turn).sweep.2 = none → Kept cache dials →
      Kept { cache with shards, cursor := cache.cursor + 1 }
        (Function.update dials cache.turn (dials cache.turn).sweep.1)) (fuel : Nat) :
    ∀ {cache : ClockCache κ ν} {dials : Nat → Dial κ ν} {sweeps : Nat},
      cache.Houses dials map → Kept cache dials →
      ClockCache.evictWithin fuel sweeps cache = .ok (after, some eviction) →
      ∃ last lastDials, last.Houses lastDials map ∧ Kept last lastDials ∧
        (lastDials last.turn).sweep.2 = some eviction.victim := by
  induction fuel with
  | zero =>
      intro cache dials sweeps _ _ evicts
      cases evicts
  | succ fuel inductionHypothesis =>
      intro cache dials sweeps houses kept evicts
      rw [ClockCache.evictWithin] at evicts
      split at evicts
      · cases evicts
      · cases found : (dials cache.turn).sweep.2 with
        | some victim =>
            obtain ⟨shards, step, _⟩ := houses.sweepNext_eq
            rw [step, found] at evicts
            cases evicts
            exact ⟨cache, dials, houses, kept, found⟩
        | none =>
            obtain ⟨shards, step, housesAfter⟩ := houses.sweepNext_none found
            rw [step] at evicts
            exact inductionHypothesis housesAfter (keeps shards houses found kept) evicts

variable [LawfulHashable κ] {key : κ} {value : ν}

/-! ## Entries that stay -/

/-- In this shard, which is that of the second entry, the second entry waits for the first. -/
structure Waits (shard : Nat) (first second : Entry κ ν) (cache : ClockCache κ ν)
    (dials : Nat → Dial κ ν) : Prop where
  routed : cache.geometry.Routes shard second.hash second.key
  awaits : Awaits (dials shard).entries first second

section Waits

variable {shard : Nat} {first second : Entry κ ν}

omit [LawfulHashable κ] in
theorem Houses.waits_next (houses : cache.Houses dials map) (shards : Array (Table κ ν))
    (noVictim : (dials cache.turn).sweep.2 = none) (waits : Waits shard first second cache dials) :
    Waits shard first second { cache with shards, cursor := cache.cursor + 1 }
      (Function.update dials cache.turn (dials cache.turn).sweep.1) where
  routed := waits.routed
  awaits := by
    by_cases own : shard = cache.turn
    · have awaits := own ▸ waits.awaits
      rw [own, Function.update_self]
      exact (awaits.sweep (houses.valid _ houses.turn_lt) (by simp [noVictim])).2
    · rw [Function.update_of_ne own]
      exact waits.awaits

/-- An entry that waits for another one of its shard is not the victim. -/
theorem Houses.waiting_stays (houses : cache.Houses dials map) (first second : Entry κ ν)
    (waits : Waits shard first second cache dials) (apart : ¬ first.key == second.key)
    (evicts : cache.evict = .ok (after, some eviction)) :
    ¬ eviction.victim.key == second.key := by
  obtain ⟨last, lastDials, lastHouses, lastWaits, found⟩ :=
    houses.exists_last_sweep
      (fun shards nowHouses noVictim => nowHouses.waits_next shards noVictim) _ waits evicts
  intro same
  -- the victim is of the shard of the key that waits, since equal keys have equal hash codes
  obtain ⟨hashed, own⟩ := (Dial.names_sweep (lastHouses.routed _ lastHouses.turn_lt)).2 _ found
  have sameHash : eviction.victim.hash = second.hash := by
    rw [hashed, lastWaits.routed.1, avalanched_congr same]
  rw [sameHash, lastWaits.routed.2] at own
  subst own
  by_cases firstLeaves : (lastDials last.turn).sweep.2 = some first.spent
  · rw [found] at firstLeaves
    rw [Option.some.inj firstLeaves] at same
    exact apart same
  · have valid := lastHouses.valid _ lastHouses.turn_lt
    exact (lastWaits.awaits.sweep valid firstLeaves).1 _ found (Entry.holds_iff.2 ⟨sameHash, same⟩)

end Waits

/-! ## Entries that leave -/

/-- Before the cursor reaches `final` the shard is due to give up an entry, and until then no
entry is given up but one for the key. -/
structure Yields (shard : Nat) (key : κ) (final : Nat) (cache : ClockCache κ ν)
    (dials : Nat → Dial κ ν) : Prop where
  outlasts : Outlasts cache.geometry dials key cache.cursor final
  due : ∃ rounds ahead, (cache.cursor + ahead) % cache.geometry.shards = shard ∧
    (dials shard).Due (rounds + 1) ∧
    cache.cursor + (cache.geometry.shards * rounds + ahead) < final

section Yields

variable {shard final : Nat}

omit [LawfulHashable κ]

theorem Houses.yields_next (houses : cache.Houses dials map) (shards : Array (Table κ ν))
    (noVictim : (dials cache.turn).sweep.2 = none) (yields : Yields shard key final cache dials) :
    Yields shard key final { cache with shards, cursor := cache.cursor + 1 }
      (Function.update dials cache.turn (dials cache.turn).sweep.1) where
  outlasts := yields.outlasts.sweep
  due := by
    obtain ⟨rounds, ahead, reaches, due, soon⟩ := yields.due
    obtain ⟨roundsLeft, nearer, reachesNext, fewer, dueNext⟩ :=
      houses.due_next noVictim reaches due
    refine ⟨roundsLeft, nearer, reachesNext, dueNext, ?_⟩
    dsimp only
    omega

/-- Where the entries for all other keys have more than three visits, an entry for the key is
evicted as soon as there is one with one visit. -/
theorem Houses.yielding_leaves (houses : cache.Houses dials map)
    (inBounds : shard < cache.geometry.shards) (due : (dials shard).Due 3)
    (heavy : ∀ index < cache.geometry.shards, ∀ entry ∈ (dials index).entries,
      entry.key == key ∨ 3 < entry.visits)
    (evicts : cache.evict = .ok (after, some eviction)) : eviction.victim.key == key := by
  let final := cache.cursor + cache.geometry.shards * 3
  have start : Yields shard key final cache dials := by
    obtain ⟨ahead, aheadBound, reaches⟩ := exists_turn cache.cursor inBounds
    refine ⟨fun index indexBound entry member => ?_, 2, ahead, reaches, due, ?_⟩
    · rw [turnsBefore_three_rounds houses.shards_pos]
      exact (heavy index indexBound entry member).imp_right fun enough => by omega
    · dsimp only [final]
      omega
  obtain ⟨last, lastDials, lastHouses, lastYields, found⟩ :=
    houses.exists_last_sweep
      (fun shards nowHouses noVictim => nowHouses.yields_next shards noVictim) _ start evicts
  obtain ⟨_, _, _, _, soon⟩ := lastYields.due
  obtain ⟨old, member, sameKey, light⟩ := Dial.exists_of_victim found
  rw [sameKey]
  -- an entry of another key would have a visit more than it had turns
  refine (lastYields.outlasts _ lastHouses.turn_lt old member).resolve_right fun enough => ?_
  have later : last.cursor + 1 ≤ final := by omega
  have own : last.cursor % last.geometry.shards = last.turn := rfl
  have turnLeft := turnsBefore_mono lastHouses.turn_lt later
  rw [turnsBefore_succ lastHouses.turn_lt, if_pos own] at turnLeft
  omega

end Yields

/-! ## What becomes of a new entry -/

section Newcomer

variable {stored : ClockCache κ ν} (houses : cache.Houses dials map) (isNew : map[key]? = none)
  (sameGeometry : stored.geometry = cache.geometry)
  (storedHouses : stored.Houses
    (Function.update dials (cache.geometry.shardOf (HashCode.avalanched key))
      ((dials (cache.geometry.shardOf (HashCode.avalanched key))).put
        (HashCode.avalanched key) key value).1)
    (map.insert key value))
  (evicts : stored.evict = .ok (after, some eviction))

include houses isNew sameGeometry storedHouses evicts

/-- A new entry stays if its shard holds another one with one visit. -/
theorem Houses.newcomer_stays {other : Entry κ ν}
    (member : other ∈ (dials (cache.geometry.shardOf (HashCode.avalanched key))).entries)
    (light : other.visits = 1) : ¬ eviction.victim.key == key := by
  have inBounds := houses.shardOf_lt (HashCode.avalanched key)
  have missing := houses.missing_of_new isNew
  have entries := Dial.entries_put_of_missing missing value
  have apart : ¬ other.key == key := by
    intro same
    have absent := Dial.absent_of_find? (Option.map_eq_none_iff.1 missing) other member
    exact absent (houses.holds_of_beq inBounds member same)
  have valid := storedHouses.valid _ (sameGeometry ▸ inBounds)
  rw [sameGeometry, Function.update_self, entries] at valid
  have precedes : Precedes _ other ⟨HashCode.avalanched key, key, value, 1⟩ :=
    { firstMember := List.mem_append_left _ member
      secondMember := List.mem_append_right _ (List.mem_singleton.2 rfl)
      order := .inr ⟨light, (List.singleton_sublist.2 member).append (List.Sublist.refl _)⟩ }
  refine storedHouses.waiting_stays other ⟨HashCode.avalanched key, key, value, 1⟩
    ⟨⟨rfl, rfl⟩, ?_⟩ apart evicts
  rw [sameGeometry, Function.update_self, entries]
  exact precedes.awaits valid

omit [LawfulHashable κ] in
/-- A new entry leaves if all others have more than three visits. -/
theorem Houses.newcomer_leaves
    (heavy : ∀ shard < cache.geometry.shards, ∀ other ∈ (dials shard).entries, 3 < other.visits) :
    eviction.victim.key == key := by
  have inBounds := houses.shardOf_lt (HashCode.avalanched key)
  refine storedHouses.yielding_leaves (sameGeometry ▸ inBounds) ?_ ?_ evicts
  · rw [sameGeometry, Function.update_self]
    exact houses.due_of_new isNew value
  · intro shard shardBound entry member
    rw [sameGeometry] at shardBound
    by_cases own : shard = cache.geometry.shardOf (HashCode.avalanched key)
    · subst own
      rw [Function.update_self, Dial.entries_put_of_missing (houses.missing_of_new isNew)] at member
      rcases List.mem_append.1 member with old | new
      · exact .inr (heavy _ shardBound entry old)
      · rw [List.mem_singleton.1 new]
        exact .inl BEq.rfl
    · rw [Function.update_of_ne own] at member
      exact .inr (heavy shard shardBound entry member)

end Newcomer

/-! ## Looking up the keys of a filled cache -/

/-- A get of a key is one visit more for the key. -/
theorem Houses.visited_get (houses : cache.Houses dials map) {visits : κ → Nat}
    (visited : Visited cache.geometry.shards dials visits) (key : κ) :
    let hash := HashCode.avalanched key
    let shard := cache.geometry.shardOf hash
    Visited cache.geometry.shards
      (Function.update dials shard ((dials shard).get hash key).1)
      fun other => visits other + if key == other then 1 else 0 := by
  intro hash shard index inBounds entry member
  by_cases own : index = shard
  · rw [own, Function.update_self] at member
    rw [own] at inBounds
    obtain ⟨old, oldMember, same⟩ := Dial.exists_of_mem_get member
    have oldVisits := visited shard inBounds old oldMember
    by_cases holds : old.holds hash key
    · rw [if_pos holds] at same
      subst same
      have sameKey : key == old.key := BEq.symm (Entry.holds_iff.1 holds).2
      dsimp only [Entry.visit]
      rw [if_pos sameKey]
      omega
    · rw [if_neg holds] at same
      subst same
      have otherKey : ¬ key == entry.key := by
        intro sameKey
        exact holds (houses.holds_of_beq inBounds oldMember (BEq.symm sameKey))
      simpa [otherKey] using oldVisits
  · rw [Function.update_of_ne own] at member
    have otherKey : (key == entry.key) = false := by
      have here : cache.geometry.shardOf (HashCode.avalanched key) = shard := rfl
      refine Houses.beq_of_shardOf_ne here ?_
      obtain ⟨hashed, routed⟩ := houses.routed index inBounds entry member
      rwa [← hashed, routed]
    simpa [otherKey] using visited index inBounds entry member

/-- Gets change no value, and each counts for its key. -/
theorem Houses.gets (keys : List κ) :
    ∀ {cache : ClockCache κ ν} {dials : Nat → Dial κ ν} {visits : κ → Nat},
      cache.Houses dials map → Visited cache.geometry.shards dials visits →
      ∃ final outcomes dials',
        serveAll ClockCache.serve cache (keys.map .get) = .ok (final, outcomes) ∧
        final.Houses dials' map ∧ final.limit = cache.limit ∧
        Visited final.geometry.shards dials' fun key => visits key + keys.count key := by
  induction keys with
  | nil =>
      intro cache dials visits houses visited
      exact ⟨cache, [], dials, rfl, houses, rfl, by simpa using visited⟩
  | cons key rest inductionHypothesis =>
      intro cache dials visits houses visited
      obtain ⟨shards, step, housesMiddle⟩ := houses.get key
      obtain ⟨final, outcomes, dials', others, housesFinal, sameLimit, visitedFinal⟩ :=
        inductionHypothesis housesMiddle (houses.visited_get visited key)
      have first : cache.serve (.get key) =
          .ok ({ cache with shards }, { answer := .value map[key]? }) := by
        simp [ClockCache.serve, step]
      refine ⟨final, _, dials', serveAll_cons_of_ok first others, housesFinal, sameLimit, ?_⟩
      intro shard inBounds entry member
      have sameVisits := visitedFinal shard inBounds entry member
      dsimp only at sameVisits ⊢
      rw [List.count_cons]
      omega

/-! ## A put and the next get -/

/-- The shard at this position stores the entry. -/
def Stores (cache : ClockCache κ ν) (shard : Nat) (entry : Entry κ ν) : Prop :=
  ∃ table entries, cache.shards[shard]? = some table ∧ table.entries = .ok entries ∧
    entry ∈ entries

omit [LawfulHashable κ] [EquivBEq κ] in
theorem Houses.stores_iff (houses : cache.Houses dials map) {shard : Nat} {entry : Entry κ ν} :
    cache.Stores shard entry ↔
      shard < cache.geometry.shards ∧ entry ∈ (dials shard).entries := by
  constructor
  · rintro ⟨table, entries, isTable, listed, member⟩
    obtain ⟨inBounds, rfl⟩ := Array.getElem?_eq_some_iff.1 isTable
    rw [(houses.shows shard inBounds).entries_eq] at listed
    cases listed
    exact ⟨houses.sized ▸ inBounds, member⟩
  · rintro ⟨inBounds, member⟩
    rw [← houses.sized] at inBounds
    exact ⟨_, _, Array.getElem?_eq_getElem inBounds, (houses.shows shard inBounds).entries_eq,
      member⟩

section Filled

variable {limit : Nat} {pairs : List (κ × ν)} {visits : κ → Nat}

/-- The shard of a key in a filled cache stores an entry with the visits of the key. -/
theorem Filled.exists_stored (filled : Filled limit pairs visits cache dials)
    (isKey : (pairs.map Prod.fst).contains key) :
    ∃ other, cache.Stores (cache.geometry.shardOf (HashCode.avalanched key)) other ∧
      other.key == key ∧ other.visits = min (visits other.key) maxVisits := by
  have houses := filled.houses
  have inBounds := houses.shardOf_lt (HashCode.avalanched key)
  have isHeld : key ∈ (∅ : Std.HashMap κ ν).insertMany pairs :=
    Std.HashMap.mem_insertMany_list.2 (.inr isKey)
  rw [Std.HashMap.mem_iff_isSome_getElem?, houses.mapped] at isHeld
  obtain ⟨value, found⟩ := Option.isSome_iff_exists.1 isHeld
  obtain ⟨other, member, holds, _⟩ := (houses.valid _ inBounds).valueIn_eq_some_iff.1 found
  exact ⟨other, houses.stores_iff.2 ⟨inBounds, member⟩, (Entry.holds_iff.1 holds).2,
    filled.visited _ inBounds other member⟩

/-- After three lookups of each key all entries have more than three visits. -/
theorem Filled.exists_heavy (filled : Filled limit pairs (fun _ => 1) cache dials) :
    let keys := pairs.map Prod.fst
    ∃ final outcomes dials' visits,
      serveAll ClockCache.serve cache ((keys ++ keys ++ keys).map .get) = .ok (final, outcomes) ∧
      Filled limit pairs visits final dials' ∧
      ∀ shard other, final.Stores shard other → 3 < other.visits := by
  intro keys
  obtain ⟨final, outcomes, dials', gets, houses, sameLimit, visited⟩ :=
    filled.houses.gets (keys ++ keys ++ keys) filled.visited
  have size : final.size = limit := by
    rw [← houses.mapSize, filled.houses.mapSize, filled.size]
  refine ⟨final, outcomes, dials', _, gets,
    ⟨houses, size, sameLimit.trans filled.isLimit, visited⟩, fun shard other stores => ?_⟩
  obtain ⟨inBounds, member⟩ := houses.stores_iff.1 stores
  have isKey : 0 < keys.count other.key := by
    have held := houses.mem_of_entry inBounds member
    have among := (Std.HashMap.mem_insertMany_list.1 held).resolve_left Std.HashMap.not_mem_empty
    obtain ⟨named, inKeys, same⟩ := List.contains_iff_exists_mem_beq.1 among
    exact List.countP_pos_iff.2 ⟨named, inKeys, BEq.symm same⟩
  have sameVisits := visited shard inBounds other member
  dsimp only at sameVisits
  rw [List.count_append, List.count_append] at sameVisits
  have countable : 3 < maxVisits := by decide
  omega

end Filled

/-- What becomes of a value that is put under a key: what the put evicts, and what a get of the
key answers next. -/
structure Fate (cache : ClockCache κ ν) (key : κ) (value : ν) (evicted : List κ)
    (answer : Option ν) : Prop where
  /-- The value is found, unless the put evicted the entry that it stored. -/
  visible : answer = if evicted.any (· == key) then none else some value
  /-- Nothing is evicted for a key that is held, or while there is room. -/
  still : cache.contains key = .ok true ∨ cache.size < cache.limit → evicted = []
  /-- An entry with one visit in the shard of the key leaves before the new one. -/
  stays : ∀ other, cache.Stores (cache.geometry.shardOf (HashCode.avalanched key)) other →
    other.visits = 1 → answer = some value
  /-- A new key leaves a full cache at once if all entries have more than three visits. -/
  leaves : cache.contains key = .ok false → cache.size = cache.limit →
    (∀ shard other, cache.Stores shard other → 3 < other.visits) →
      (∃ spelling, evicted = [spelling] ∧ spelling == key) ∧ answer = none

theorem Houses.fate (houses : cache.Houses dials map) (within : cache.size ≤ cache.limit)
    (key : κ) (value : ν) :
    ∃ after result final answer, cache.put key value = .ok (after, result) ∧
      after.get key = .ok (final, answer) ∧ Fate cache key value result.evictedKeys answer := by
  have contains := houses.contains key
  rw [Std.HashMap.contains_eq_isSome_getElem?] at contains
  have inserted : (map.insert key value)[key]? = some value := Std.HashMap.getElem?_insert_self
  by_cases still : map[key]?.isSome ∨ cache.size < cache.limit
  · obtain ⟨shards, size, step, fits, housesAfter⟩ := houses.put_still within key still value
    obtain ⟨_, found, _⟩ := housesAfter.get key
    rw [inserted] at found
    refine ⟨_, _, _, _, step, found, ?_⟩
    refine ⟨rfl, fun _ => rfl, fun _ _ _ => rfl, fun isNew full _ => ?_⟩
    rw [contains] at isNew
    rcases still with held | room
    · rw [held] at isNew
      contradiction
    · omega
  · obtain ⟨missing, noRoom⟩ := not_or.1 still
    have isNew : map[key]? = none := by simpa using missing
    have full : cache.size = cache.limit := by omega
    obtain ⟨storing, _, storedHouses, shards, size, cursor, eviction, dials', evicts, step, _, _,
        housesAfter⟩ := houses.put_full full isNew value
    have sameGeometry : ({ cache with shards := storing, size := cache.size + 1 } :
        ClockCache κ ν).geometry = cache.geometry := rfl
    obtain ⟨_, found, _⟩ := housesAfter.get key
    rw [Std.HashMap.getElem?_erase, inserted] at found
    have keys : (PutResult.mk (none : Option ν) (some eviction)).evictedKeys =
        [eviction.victim.key] := rfl
    refine ⟨_, _, _, _, step, found, ?_⟩
    rw [keys]
    refine ⟨by simp, fun noEviction => ?_, fun other stores light => ?_, fun _ _ heavy => ?_⟩
    · rw [contains, isNew] at noEviction
      exact absurd noEviction (by simp [full])
    · have member := (houses.stores_iff.1 stores).2
      have stays := houses.newcomer_stays isNew sameGeometry storedHouses evicts member light
      rw [if_neg stays]
    · have leaves := houses.newcomer_leaves isNew sameGeometry storedHouses evicts
        fun shard inBounds other member =>
          heavy shard other (houses.stores_iff.2 ⟨inBounds, member⟩)
      rw [if_pos leaves]
      exact ⟨⟨_, rfl, leaves⟩, rfl⟩

/-- Whatever a cache has served, a get right after a put finds the value, unless the put evicted
the entry that it stored. Whether it does depends on the visits of the entries that are held. -/
theorem put_is_visible_or_evicted {limit concurrency : Nat} {fresh : ClockCache κ ν}
    (built : ofLimit limit concurrency = .ok fresh) (past : List (CacheRequest κ ν)) (key : κ)
    (value : ν) :
    ∃ cache outcomes after result final answer,
      serveAll ClockCache.serve fresh past = .ok (cache, outcomes) ∧ cache.limit = limit ∧
      cache.put key value = .ok (after, result) ∧ after.get key = .ok (final, answer) ∧
      Fate cache key value result.evictedKeys answer := by
  obtain ⟨houses, empty, freshLimit⟩ := Houses.ofLimit built
  obtain ⟨cache, outcomes, dials, served, housesCache, within, sameLimit⟩ :=
    Houses.run past houses (by omega)
  obtain ⟨after, result, final, answer, step, found, fate⟩ := housesCache.fate within key value
  exact ⟨cache, outcomes, after, result, final, answer, served, sameLimit.trans freshLimit, step,
    found, fate⟩

/-- The smallest cache of sixteen shards is filled. A new key with the hash code of another one is
found after its put, since the entry for the other one leaves before it. After three lookups of each
key it is not found. -/
theorem put_is_visible_or_evicted_full_cache :
    ∃ fresh : ClockCache Nat Nat, ofLimit 1524 16 = .ok fresh ∧
      let keys := List.range 1524
      let puts : List (CacheRequest Nat Nat) := keys.map fun key => .put key key
      (∃ cache outcomes after result final,
        serveAll ClockCache.serve fresh puts = .ok (cache, outcomes) ∧ cache.size = 1524 ∧
        cache.contains 4294967296 = .ok false ∧
        cache.put 4294967296 7 = .ok (after, result) ∧
        after.get 4294967296 = .ok (final, some 7) ∧
        Fate cache 4294967296 7 result.evictedKeys (some 7)) ∧
      ∃ cache outcomes after result final,
        serveAll ClockCache.serve fresh (puts ++ (keys ++ keys ++ keys).map .get) =
          .ok (cache, outcomes) ∧
        cache.put 4294967296 7 = .ok (after, result) ∧
        after.get 4294967296 = .ok (final, none) ∧
        Fate cache 4294967296 7 result.evictedKeys none := by
  obtain ⟨fresh, built⟩ := exists_smallest (κ := Nat) (ν := Nat)
  obtain ⟨cache, outcomes, dials, pairs, fills, filled, keys⟩ := exists_filled_range built
  have isNew : (pairs.map Prod.fst).contains 4294967296 = false := by simp [keys]
  have isKey : (pairs.map Prod.fst).contains 1 := by simp [keys]
  have collides : HashCode.avalanched 4294967296 = HashCode.avalanched 1 := by decide
  refine ⟨fresh, built, ?_, ?_⟩
  · obtain ⟨same, _, after, result, final, answer, served, _, step, found, fate⟩ :=
      put_is_visible_or_evicted built ((List.range 1524).map fun key => .put key key) 4294967296 7
    cases fills.symm.trans served
    obtain ⟨other, stores, _, once⟩ := filled.exists_stored isKey
    rw [← collides] at stores
    have visible := fate.stays other stores once
    exact ⟨cache, outcomes, after, result, final, fills, filled.size, isNew ▸ filled.contains _,
      step, visible ▸ found, visible ▸ fate⟩
  · obtain ⟨visited, _, _, _, gets, visitedFilled, heavy⟩ := filled.exists_heavy
    rw [keys] at gets
    obtain ⟨same, _, after, result, final, answer, served, _, step, found, fate⟩ :=
      put_is_visible_or_evicted built
        ((List.range 1524).map (fun key => .put key key) ++
          (List.range 1524 ++ List.range 1524 ++ List.range 1524).map .get) 4294967296 7
    cases (serveAll_append fills gets).symm.trans served
    obtain ⟨_, lost⟩ := fate.leaves (isNew ▸ visitedFilled.contains _)
      (visitedFilled.size.trans visitedFilled.isLimit.symm) heavy
    exact ⟨visited, _, after, result, final, served, step, lost ▸ found, lost ▸ fate⟩

/-! ## A put that is lost -/

/-- Whatever the hash codes, a filled cache whose keys are then all looked up three times gives up
the next new key as soon as it is put. -/
theorem Filled.loses_newcomer {limit : Nat} {pairs : List (κ × ν)}
    (filled : Filled limit pairs (fun _ => 1) cache dials)
    (isNew : (pairs.map Prod.fst).contains key = false) (value : ν) :
    let keys := pairs.map Prod.fst
    ∃ visited outcomes after result final,
      serveAll ClockCache.serve cache ((keys ++ keys ++ keys).map .get) =
        .ok (visited, outcomes) ∧
      visited.put key value = .ok (after, result) ∧ after.get key = .ok (final, none) := by
  intro keys
  obtain ⟨visited, outcomes, _, _, gets, visitedFilled, heavy⟩ := filled.exists_heavy
  have isFull : visited.size = visited.limit :=
    visitedFilled.size.trans visitedFilled.isLimit.symm
  obtain ⟨after, result, final, answer, step, found, fate⟩ :=
    visitedFilled.houses.fate (Nat.le_of_eq isFull) key value
  obtain ⟨_, lost⟩ := fate.leaves (isNew ▸ visitedFilled.contains key) isFull heavy
  exact ⟨visited, outcomes, after, result, final, gets, step, lost ▸ found⟩

/-- The smallest cache of sixteen shards is filled, every key is looked up three times, and the
next key is gone right after it was put. -/
theorem put_is_lost_three_lookups_each :
    ∃ fresh cache after final : ClockCache Nat Nat, ∃ outcomes result,
      ofLimit 1524 16 = .ok fresh ∧
      serveAll ClockCache.serve fresh
        ((List.range 1524).map (fun key => .put key key) ++
          (List.range 1524 ++ List.range 1524 ++ List.range 1524).map .get) =
        .ok (cache, outcomes) ∧
      cache.put 9999 7 = .ok (after, result) ∧ after.get 9999 = .ok (final, none) := by
  obtain ⟨fresh, built⟩ := exists_smallest (κ := Nat) (ν := Nat)
  obtain ⟨_, _, _, pairs, fills, filled, keys⟩ := exists_filled_range built
  have isNew : (pairs.map Prod.fst).contains 9999 = false := by simp [keys]
  obtain ⟨cache, _, after, result, final, gets, step, lost⟩ := filled.loses_newcomer isNew 7
  rw [keys] at gets
  exact ⟨fresh, cache, after, final, _, result, built, serveAll_append fills gets, step, lost⟩

end BoundedCache.ClockCache
