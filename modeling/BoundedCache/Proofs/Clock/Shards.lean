import BoundedCache.Proofs.Clock.Due
import BoundedCache.Proofs.Clock.Lookup
import BoundedCache.Proofs.Clock.Sweep
import BoundedCache.Proofs.Requests
import Mathlib.Algebra.Ring.Nat
import Mathlib.Logic.Function.Basic

/-!
# The shards of a clock cache

Each shard shows a dial, and together the dials hold what a plain map holds. A key is held by the
shard that its hash code chooses and by no other, so a step on one shard changes the map at the
keys of that shard only.
-/

namespace BoundedCache

open Clock

namespace Clock

variable {κ ν : Type}

/-! ## Sizes of dials -/

/-- The number of entries of the first `count` dials. -/
def total (dials : Nat → Dial κ ν) (count : Nat) : Nat :=
  ((List.range count).map fun index => (dials index).entries.length).sum

theorem total_succ (dials : Nat → Dial κ ν) (count : Nat) :
    total dials (count + 1) = total dials count + (dials count).entries.length := by
  simp [total, List.range_succ]

theorem total_congr {dials others : Nat → Dial κ ν} {count : Nat}
    (same : ∀ index < count, others index = dials index) :
    total others count = total dials count := by
  rw [total, total]
  congr 1
  refine List.map_congr_left fun index member => ?_
  rw [same index (List.mem_range.1 member)]

/-- Replacing one dial changes the number by what it holds more or less. -/
theorem total_update (dials : Nat → Dial κ ν) (dial : Dial κ ν) {index count : Nat}
    (inBounds : index < count) :
    total (Function.update dials index dial) count + (dials index).entries.length =
      total dials count + dial.entries.length := by
  induction count with
  | zero => contradiction
  | succ count inductionHypothesis =>
      rw [total_succ, total_succ]
      rcases Nat.lt_succ_iff_lt_or_eq.1 inBounds with earlier | rfl
      · have others := inductionHypothesis earlier
        rw [Function.update_of_ne (by omega)]
        omega
      · have unchanged : ∀ other < index, Function.update dials index dial other = dials other :=
          fun other smaller => Function.update_of_ne (Nat.ne_of_lt smaller) _ _
        rw [total_congr unchanged, Function.update_self]
        omega

theorem length_le_total (dials : Nat → Dial κ ν) {index count : Nat} (inBounds : index < count) :
    (dials index).entries.length ≤ total dials count := by
  have replaced := total_update dials Dial.empty inBounds
  simp only [Dial.empty, List.length_nil] at replaced
  omega

theorem total_eq_zero {dials : Nat → Dial κ ν} {count : Nat}
    (empty : ∀ index < count, (dials index).entries = []) : total dials count = 0 := by
  induction count with
  | zero => rfl
  | succ count inductionHypothesis =>
      have earlier := inductionHypothesis fun index smaller => empty index (by omega)
      rw [total_succ, earlier, empty count (by omega), List.length_nil]

/-! ## Routing -/

theorem Geometry.shardOf_lt {geometry : Geometry} (positive : 0 < geometry.shards)
    (hash : UInt32) : geometry.shardOf hash < geometry.shards :=
  Nat.lt_of_le_of_lt Nat.and_le_right (Nat.sub_lt positive Nat.one_pos)

open private Nat.nextPowerOfTwo.go from Init.Data.Nat.Power2.Basic in
theorem le_nextPowerOfTwo (wanted : Nat) : wanted ≤ wanted.nextPowerOfTwo := by
  have doubled : ∀ power (positive : 0 < power),
      wanted ≤ Nat.nextPowerOfTwo.go wanted power positive := by
    intro power positive
    fun_induction Nat.nextPowerOfTwo.go wanted power positive with
    | case1 power positive below inductionHypothesis => exact inductionHypothesis
    | case2 power positive reached => exact Nat.le_of_not_lt reached
  exact doubled 1 Nat.one_pos

/-- There are at least sixteen shards, so some bits of a word are left to be shifted out. -/
theorem Geometry.shift_of_ofLimit {limit concurrency : Nat} {geometry : Geometry}
    (divided : Geometry.ofLimit limit concurrency = .ok geometry) : geometry.shift < 32 := by
  have many : 2 ≤ Geometry.shardCount concurrency :=
    calc
      2 ≤ min (max concurrency minShards) maxShards := by
        simp only [minShards, maxShards]
        omega
      _ ≤ Geometry.shardCount concurrency := le_nextPowerOfTwo _
  have positive : 0 < (Geometry.shardCount concurrency).log2 :=
    (Nat.le_log2 (by omega)).2 many
  rw [Geometry.ofLimit] at divided
  split at divided
  · contradiction
  · cases divided
    exact Nat.sub_lt (by decide) positive

theorem Geometry.power_of_ofLimit {limit concurrency : Nat} {geometry : Geometry}
    (divided : Geometry.ofLimit limit concurrency = .ok geometry) :
    ∃ bits, geometry.shards = 2 ^ bits := by
  rw [Geometry.ofLimit] at divided
  split at divided
  · contradiction
  · cases divided
    exact Nat.isPowerOfTwo_nextPowerOfTwo _

/-- Whether a key under a hash code is held by the shard at this position. -/
def Geometry.Routes [Hashable κ] (geometry : Geometry) (index : Nat) (hash : UInt32) (key : κ) :
    Prop :=
  hash = HashCode.avalanched key ∧ geometry.shardOf hash = index

theorem avalanched_congr [BEq κ] [Hashable κ] [LawfulHashable κ] {key other : κ}
    (same : key == other) : HashCode.avalanched key = HashCode.avalanched other := by
  rw [HashCode.avalanched, HashCode.avalanched, HashCode.ofKey, HashCode.ofKey, hash_eq same]

end Clock

namespace ClockCache

variable {κ ν : Type} [BEq κ] [Hashable κ]

/-! ## Caches that house dials -/

/-- The shards of the cache show these dials, which together hold what the map holds. -/
structure Houses (cache : ClockCache κ ν) (dials : Nat → Dial κ ν) (map : Std.HashMap κ ν) :
    Prop where
  power : ∃ bits, cache.geometry.shards = 2 ^ bits
  shift : cache.geometry.shift < 32
  sized : cache.shards.size = cache.geometry.shards
  shows : ∀ index (inBounds : index < cache.shards.size), cache.shards[index].Shows (dials index)
  valid : ∀ index < cache.geometry.shards, Valid (dials index).entries
  routed : ∀ index < cache.geometry.shards, ∀ entry ∈ (dials index).entries,
    cache.geometry.Routes index entry.hash entry.key
  counted : total dials cache.geometry.shards = cache.size
  mapped : ∀ key, map[key]? =
    (dials (cache.geometry.shardOf (HashCode.avalanched key))).value? (HashCode.avalanched key) key
  mapSize : map.size = cache.size

namespace Houses

variable {cache : ClockCache κ ν} {dials : Nat → Dial κ ν} {map : Std.HashMap κ ν}

theorem shards_pos (houses : cache.Houses dials map) : 0 < cache.geometry.shards := by
  obtain ⟨bits, power⟩ := houses.power
  rw [power]
  exact Nat.two_pow_pos bits

theorem shardOf_lt (houses : cache.Houses dials map) (hash : UInt32) :
    cache.geometry.shardOf hash < cache.geometry.shards :=
  Geometry.shardOf_lt houses.shards_pos hash

theorem sum_sizes (houses : cache.Houses dials map) :
    (cache.shards.toList.map Table.size).sum = cache.size := by
  rw [← houses.counted, total, ← houses.sized]
  congr 1
  refine List.ext_getElem (by simp) fun index inBounds _ => ?_
  have inShards : index < cache.shards.size := by simpa using inBounds
  rw [List.getElem_map, List.getElem_map, List.getElem_range]
  exact (houses.shows index inShards).size

theorem missing_of_new (houses : cache.Houses dials map) {key : κ} (isNew : map[key]? = none) :
    (dials (cache.geometry.shardOf (HashCode.avalanched key))).value? (HashCode.avalanched key)
      key = none :=
  (houses.mapped key).symm.trans isNew

/-- A step that a dial describes succeeds on its shard and leaves the others alone. -/
theorem onShard {β : Type} (houses : cache.Houses dials map) {index : Nat}
    (inBounds : index < cache.geometry.shards) {step : Table κ ν → Checked (Table κ ν × β)}
    {outcome : Dial κ ν × β}
    (realizes : ∀ table : Table κ ν, table.Shows (dials index) →
      Realizes table.buckets (step table) outcome) :
    ∃ shards, ClockCache.onShard cache.shards index step = .ok (shards, outcome.2) ∧
      shards.size = cache.shards.size ∧
      ∀ other (otherBound : other < shards.size),
        shards[other].Shows (Function.update dials index outcome.1 other) := by
  have inShards : index < cache.shards.size := houses.sized ▸ inBounds
  obtain ⟨table, succeeds, showsAfter, _⟩ := realizes _ (houses.shows index inShards)
  refine ⟨cache.shards.set index table, ?_, Array.size_set _, ?_⟩
  · rw [onShard_of_lt inShards, succeeds]
    rfl
  · intro other otherBound
    rw [Array.getElem_set]
    by_cases same : index = other
    · subst same
      rw [if_pos rfl, Function.update_self]
      exact showsAfter
    · rw [if_neg same, Function.update_of_ne (Ne.symm same)]
      exact houses.shows other _

/-- The cache after one of its dials was replaced, with a map that follows it. -/
theorem replace (houses : cache.Houses dials map) {index : Nat}
    (inBounds : index < cache.geometry.shards) {shards : Array (Table κ ν)} {dial : Dial κ ν}
    {after : Std.HashMap κ ν} {size : Nat} (cursor : Nat)
    (sameSize : shards.size = cache.shards.size)
    (shows : ∀ other (otherBound : other < shards.size),
      shards[other].Shows (Function.update dials index dial other))
    (valid : Valid dial.entries)
    (routed : ∀ entry ∈ dial.entries, cache.geometry.Routes index entry.hash entry.key)
    (counted : size + (dials index).entries.length = cache.size + dial.entries.length)
    (here : ∀ key : κ, cache.geometry.shardOf (HashCode.avalanched key) = index →
      after[key]? = dial.value? (HashCode.avalanched key) key)
    (elsewhere : ∀ key : κ, cache.geometry.shardOf (HashCode.avalanched key) ≠ index →
      after[key]? = map[key]?)
    (mapSize : after.size = size) :
    ({ cache with shards, size, cursor } : ClockCache κ ν).Houses
      (Function.update dials index dial) after where
  power := houses.power
  shift := houses.shift
  sized := sameSize.trans houses.sized
  shows := shows
  valid other otherBound := by
    by_cases same : other = index
    · rw [same, Function.update_self]
      exact valid
    · rw [Function.update_of_ne same]
      exact houses.valid other otherBound
  routed other otherBound := by
    by_cases same : other = index
    · rw [same, Function.update_self]
      exact routed
    · rw [Function.update_of_ne same]
      exact houses.routed other otherBound
  counted := by
    have replaced := total_update dials dial inBounds
    have before := houses.counted
    dsimp only
    omega
  mapped key := by
    by_cases same : cache.geometry.shardOf (HashCode.avalanched key) = index
    · rw [here key same, same, Function.update_self]
    · rw [elsewhere key same, houses.mapped, Function.update_of_ne same]
  mapSize := mapSize

/-! ## New caches -/

theorem ofLimit {limit concurrency : Nat} {fresh : ClockCache κ ν}
    (built : ClockCache.ofLimit limit concurrency = .ok fresh) :
    fresh.Houses (fun _ => Dial.empty) ∅ ∧ fresh.size = 0 ∧ fresh.limit = limit := by
  rw [ClockCache.ofLimit] at built
  cases divided : Geometry.ofLimit limit concurrency with
  | error cause =>
      rw [divided] at built
      contradiction
  | ok geometry =>
      rw [divided, ok_bind] at built
      cases shardBuilt : (Table.ofBuckets geometry.buckets : Except SizingError (Table κ ν)) with
      | error cause =>
          rw [shardBuilt] at built
          contradiction
      | ok shard =>
          rw [shardBuilt] at built
          cases built
          refine ⟨?_, rfl, rfl⟩
          exact
            { power := Geometry.power_of_ofLimit divided
              shift := Geometry.shift_of_ofLimit divided
              sized := Array.size_replicate
              shows := fun index inBounds => by
                simp only [Array.getElem_replicate]
                exact Table.shows_of_ofBuckets shardBuilt
              valid := fun _ _ => valid_nil
              routed := fun _ _ entry member => absurd member List.not_mem_nil
              counted := total_eq_zero fun _ _ => rfl
              mapped := fun key => Std.HashMap.getElem?_empty
              mapSize := Std.HashMap.size_empty }

/-! ## Requests that evict nothing -/

theorem foldl_sizes (houses : cache.Houses dials map) :
    cache.shards.foldl (fun total shard => total + shard.size) 0 = cache.size := by
  rw [← houses.sum_sizes, ← Array.foldl_toList, List.sum_eq_foldl, List.foldl_map]

theorem clear (houses : cache.Houses dials map) :
    cache.clear.Houses (fun index => (dials index).clear) (∅ : Std.HashMap κ ν) := by
  have size : cache.clear.size = 0 := by simp [ClockCache.clear, houses.foldl_sizes]
  exact
    { power := houses.power
      shift := houses.shift
      sized := (Array.size_map ..).trans houses.sized
      shows := fun index inBounds => by
        simp only [ClockCache.clear, Array.getElem_map]
        exact (houses.shows index _).clear
      valid := fun _ _ => valid_nil
      routed := fun _ _ entry member => absurd member List.not_mem_nil
      counted := by rw [size, total_eq_zero fun _ _ => rfl]
      mapped := fun key => Std.HashMap.getElem?_empty
      mapSize := by rw [size, Std.HashMap.size_empty] }

section Requests

variable [EquivBEq κ]

/-- A get visits the entry for the key on the dial of its shard. -/
theorem get (houses : cache.Houses dials map) (key : κ) :
    let hash := HashCode.avalanched key
    let shard := cache.geometry.shardOf hash
    ∃ shards, cache.get key = .ok ({ cache with shards }, map[key]?) ∧
      ({ cache with shards } : ClockCache κ ν).Houses
        (Function.update dials shard ((dials shard).get hash key).1) map := by
  intro hash shard
  have inBounds : shard < cache.geometry.shards := houses.shardOf_lt hash
  obtain ⟨shards, step, sameSize, shows⟩ := houses.onShard inBounds
    fun table shows => shows.get hash key
  rw [Dial.answer_get, ← houses.mapped] at step
  refine ⟨shards, ?_, houses.replace inBounds cache.cursor sameSize shows ?_ ?_ ?_ ?_ ?_
    houses.mapSize⟩
  · simp only [hash, shard] at step
    rw [ClockCache.get]
    simp only [step, ok_bind, pure_eq_ok]
  · exact Dial.valid_get (houses.valid _ inBounds)
  · exact Dial.names_get (houses.routed _ inBounds)
  · rw [Dial.length_get]
  · intro other same
    rw [Dial.value?_get, houses.mapped, same]
  · exact fun _ _ => rfl

variable [LawfulHashable κ]

theorem contains (houses : cache.Houses dials map) (key : κ) :
    cache.contains key = .ok (map.contains key) := by
  have inBounds := houses.shardOf_lt (HashCode.avalanched key)
  rw [← houses.sized] at inBounds
  obtain ⟨found, lookup, isSome⟩ :=
    (houses.shows _ inBounds).find_isSome (HashCode.avalanched key) key
  rw [ClockCache.contains]
  simp only [Array.getElem?_eq_getElem inBounds, lookup, ok_bind, pure_eq_ok, isSome]
  rw [Std.HashMap.contains_eq_isSome_getElem?, houses.mapped, Dial.value?_eq, Option.isSome_map]

omit [EquivBEq κ] in
/-- An entry with an equal key is the entry for the key. -/
theorem holds_of_beq (houses : cache.Houses dials map) {shard : Nat} {entry : Entry κ ν}
    (inBounds : shard < cache.geometry.shards) (member : entry ∈ (dials shard).entries) {key : κ}
    (same : entry.key == key) : entry.holds (HashCode.avalanched key) key := by
  have hashed := (houses.routed shard inBounds entry member).1
  exact Entry.holds_iff.2 ⟨hashed.trans (avalanched_congr same), same⟩

theorem mem_of_entry (houses : cache.Houses dials map) {shard : Nat} {entry : Entry κ ν}
    (inBounds : shard < cache.geometry.shards) (member : entry ∈ (dials shard).entries) :
    entry.key ∈ map := by
  obtain ⟨hashed, routed⟩ := houses.routed shard inBounds entry member
  have held : (dials shard).value? entry.hash entry.key = some entry.value :=
    (houses.valid shard inBounds).valueIn_eq_some_iff.2 ⟨entry, member, entry.holds_self, rfl⟩
  rw [Std.HashMap.mem_iff_isSome_getElem?, houses.mapped, ← hashed, routed, held]
  rfl

omit [EquivBEq κ] in
/-- A key that is in no shard but its own is not the key of another request. -/
theorem beq_of_shardOf_ne {geometry : Geometry} {key other : κ} {index : Nat}
    (here : geometry.shardOf (HashCode.avalanched key) = index)
    (elsewhere : geometry.shardOf (HashCode.avalanched other) ≠ index) :
    (key == other) = false := by
  refine Bool.eq_false_iff.2 fun same => elsewhere ?_
  rw [← avalanched_congr same, here]

/-- A cache that holds a key is not empty. -/
theorem size_pos (houses : cache.Houses dials map) {key : κ} (held : map[key]?.isSome) :
    0 < cache.size := by
  refine Nat.pos_of_ne_zero fun none => ?_
  have empty : map.isEmpty := by
    rw [Std.HashMap.isEmpty_eq_size_eq_zero, houses.mapSize, none]
    rfl
  rw [Std.HashMap.getElem?_of_isEmpty empty] at held
  contradiction

theorem remove (houses : cache.Houses dials map) (key : κ) :
    let hash := HashCode.avalanched key
    let shard := cache.geometry.shardOf hash
    let size := if map[key]?.isSome then cache.size - 1 else cache.size
    ∃ shards, cache.remove key = .ok ({ cache with shards, size }, map[key]?) ∧
      ({ cache with shards, size } : ClockCache κ ν).Houses
        (Function.update dials shard ((dials shard).remove hash key).1) (map.erase key) := by
  intro hash shard size
  have inBounds : shard < cache.geometry.shards := houses.shardOf_lt hash
  obtain ⟨shards, step, sameSize, shows⟩ := houses.onShard inBounds
    fun table shows => shows.remove hash key
  have lengths := Dial.length_remove (houses.valid _ inBounds) hash key
  rw [Dial.answer_remove, ← houses.mapped] at step lengths
  have bound := length_le_total dials inBounds
  rw [houses.counted] at bound
  refine ⟨shards, ?_, houses.replace inBounds cache.cursor sameSize shows ?_ ?_ ?_ ?_ ?_ ?_⟩
  · simp only [hash, shard] at step
    rw [ClockCache.remove]
    simp only [step, ok_bind, pure_eq_ok, size]
  · exact Dial.valid_remove (houses.valid _ inBounds)
  · exact Dial.names_remove (houses.routed _ inBounds)
  · cases found : map[key]? with
    | none =>
        simp only [found, Option.toList_none, List.length_nil] at lengths
        simp [size, found]
        omega
    | some value =>
        simp only [found, Option.toList_some, List.length_singleton] at lengths
        simp [size, found]
        omega
  · intro other same
    rw [Std.HashMap.getElem?_erase]
    by_cases sameKey : key == other
    · rw [if_pos sameKey, Dial.value?_remove_same (avalanched_congr sameKey) sameKey]
    · rw [if_neg sameKey, Dial.value?_remove_other fun both => sameKey both.2, houses.mapped, same]
  · intro other elsewhere
    rw [Std.HashMap.getElem?_erase, beq_of_shardOf_ne rfl elsewhere]
    simp
  · simp only [Std.HashMap.size_erase, houses.mapSize, Std.HashMap.mem_iff_isSome_getElem?, size]

end Requests

end Houses

end ClockCache

end BoundedCache
