import BoundedCache.Proofs.Clock.Ledger

/-!
# A clock cache does not fail

A table counts its entries and the filled slots, a cache the entries of all its shards. Whatever
takes one from these numbers has found an entry before, so none of them is ever asked for more than
it has. A shard is selected by as many bits as there are shards, both by hash codes and by the
cursor.
-/

namespace BoundedCache

open Clock

variable {κ ν : Type} [BEq κ]

/-! ## Tables -/

namespace Clock.Table

/-- One entry is gone, from the entries as well as from the filled slots. -/
structure LosesOne (before after : Table κ ν) : Prop where
  size : after.size + 1 = before.size
  occupied : after.nodes.occupied + 1 = before.nodes.occupied

/-- A hash code can be divided by the number of buckets, and where a slot is emptied there was an
entry to be counted off. -/
structure Safe (table : Table κ ν) : Prop where
  buckets_pos : 0 < table.buckets
  removes : ∀ {hash key index after value}, table.find hash key = .ok (some index) →
    table.remove hash key = .ok (after, value) → table.LosesOne after
  evicts : ∀ {hand nodes passed index after victim}, table.nodes.fetch table.hand = .ok hand →
    sweepFrom table.hand table.nodes table.budget hand.ring.prev =
      .ok (nodes, passed, .victim index) →
    ({ table with nodes }.countSweep passed).evict index = .ok (after, victim) →
      table.LosesOne after

variable {table after : Table κ ν} {dial rest : Dial κ ν}

theorem Shows.occupied (shows : table.Shows dial) :
    table.nodes.occupied = table.buckets + 1 + table.size := by
  obtain ⟨cells, chains, layout, entries⟩ := shows.laidOut
  rw [layout.occupied, shows.size, ← entries, List.length_map]

theorem Shows.losesOne (shows : table.Shows dial) (showsAfter : after.Shows rest)
    (sameBuckets : after.buckets = table.buckets)
    (fewer : rest.entries.length + 1 = dial.entries.length) : table.LosesOne after := by
  have size : after.size + 1 = table.size := by rw [showsAfter.size, shows.size, fewer]
  refine ⟨size, ?_⟩
  rw [showsAfter.occupied, shows.occupied, sameBuckets, ← size, Nat.add_assoc]

theorem Shows.removes [PartialEquivBEq κ] (shows : table.Shows dial)
    (valid : Valid dial.entries) {hash : UInt32} {key : κ} {index : Nat} {value : Option ν}
    (found : table.find hash key = .ok (some index))
    (removed : table.remove hash key = .ok (after, value)) : table.LosesOne after := by
  obtain ⟨same, step, showsAfter, sameBuckets⟩ := shows.remove hash key
  rw [removed] at step
  cases step
  have lengths := Dial.length_remove valid hash key
  rcases shows.find_cases hash key with ⟨missed, _⟩ | ⟨_, _, entry, _, _, _, isEntry, _⟩
  · cases found.symm.trans missed
  · rw [Dial.answer_remove, Dial.value?_eq, isEntry] at lengths
    exact shows.losesOne showsAfter sameBuckets lengths

theorem Shows.evicts (shows : table.Shows dial) {hand : Node κ ν} {nodes : Slab (Node κ ν)}
    {passed index : Nat} {victim : Option (Entry κ ν)}
    (fetched : table.nodes.fetch table.hand = .ok hand)
    (swept : sweepFrom table.hand table.nodes table.budget hand.ring.prev =
      .ok (nodes, passed, .victim index))
    (evicted : ({ table with nodes }.countSweep passed).evict index = .ok (after, victim)) :
    table.LosesOne after := by
  obtain ⟨cells, chains, lays, entries⟩ := shows.lays
  have ahead : Layout table.buckets table.nodes ([] ++ cells) chains := lays.layout
  obtain ⟨same, front, found, rest, split, stroke, walked, sweptLayout⟩ :=
    sweepFrom_spec table.budget ahead
  rw [lays.layout.hand_prev (Slab.fetch_eq_ok_iff.1 fetched)] at swept
  have walks := swept.symm.trans walked
  cases found with
  | none => cases rest <;> cases walks
  | some cell =>
      cases walks
      let counted := ({ table with nodes } : Table κ ν).countSweep
        (strokeOf front (some cell) rest).reached
      have countedLays : counted.Lays (front.map ageCell ++ ageCell cell :: rest) chains := by
        refine ⟨sweptLayout, lays.size.trans ?_⟩
        simp [split]
      obtain ⟨smaller, step, laysAfter, _, sameBuckets⟩ := countedLays.evict
      rw [evicted] at step
      cases step
      have showsAfter : after.Shows ⟨(rest ++ front.map ageCell).map Prod.snd, after.counters⟩ :=
        laysAfter.shows rfl rfl
      refine shows.losesOne showsAfter sameBuckets ?_
      simp only [← entries, split, List.length_map, List.length_append, Option.toList_some,
        List.length_singleton]
      omega

theorem Shows.safe [PartialEquivBEq κ] (shows : table.Shows dial) (valid : Valid dial.entries) :
    table.Safe where
  buckets_pos := by
    obtain ⟨cells, chains, layout, _⟩ := shows.laidOut
    exact layout.positive
  removes := shows.removes valid
  evicts := shows.evicts

end Clock.Table

/-! ## Caches -/

namespace ClockCache

variable [Hashable κ]

/-- No shift is as wide as a word, every shard that is selected exists, and what is taken from the
size of the cache was counted before. -/
structure Safe (cache : ClockCache κ ν) : Prop where
  shift_lt : cache.geometry.shift < 32
  shardOf_lt : ∀ hash, cache.geometry.shardOf hash < cache.shards.size
  cursor_lt : cache.cursor &&& (cache.geometry.shards - 1) < cache.shards.size
  shards : ∀ shard ∈ cache.shards, shard.Safe
  removes : ∀ {key after value}, cache.remove key = .ok (after, some value) →
    after.size + 1 = cache.size
  sweeps : ∀ {after victim}, cache.sweepNext = .ok (after, some victim) →
    after.size + 1 = cache.size
  clears : cache.clear.size + cache.shards.foldl (fun total shard => total + shard.size) 0 =
    cache.size

/-- The states that a cache passes through: those between two requests, those of a put that has
stored a new key, and those between the sweeps that make room for it. -/
inductive Passes (fresh : ClockCache κ ν) : ClockCache κ ν → Prop where
  | rests {cache : ClockCache κ ν} (reached : books.Reaches fresh cache) : Passes fresh cache
  | stores {cache : ClockCache κ ν} {key : κ} {value : ν} {shards : Array (Table κ ν)}
      (reached : books.Reaches fresh cache)
      (stored : onShard cache.shards (cache.geometry.shardOf (HashCode.avalanched key))
        (fun shard => shard.put (HashCode.avalanched key) key value) = .ok (shards, none)) :
      Passes fresh { cache with shards, size := cache.size + 1 }
  | sweeps {cache next : ClockCache κ ν} (passed : Passes fresh cache)
      (tooMany : cache.limit < cache.size) (swept : cache.sweepNext = .ok (next, none)) :
      Passes fresh next

variable [EquivBEq κ] [LawfulHashable κ] {cache fresh : ClockCache κ ν} {dials : Nat → Dial κ ν}
  {map : Std.HashMap κ ν}

theorem Houses.safe (houses : cache.Houses dials map) : cache.Safe where
  shift_lt := houses.shift
  shardOf_lt hash := by
    rw [houses.sized]
    exact houses.shardOf_lt hash
  cursor_lt := by
    rw [houses.masked_cursor, houses.sized]
    exact houses.turn_lt
  shards := by
    intro shard member
    obtain ⟨index, inBounds, rfl⟩ := Array.mem_iff_getElem.1 member
    exact (houses.shows index inBounds).safe (houses.valid index (houses.sized ▸ inBounds))
  removes := by
    intro key after value removed
    obtain ⟨shards, step, _⟩ := houses.remove key
    rw [removed] at step
    obtain ⟨rfl, found⟩ := Prod.mk.inj (Except.ok.inj step)
    have held : map[key]?.isSome := by rw [← found, Option.isSome_some]
    have positive := houses.size_pos held
    rw [if_pos held]
    exact Nat.sub_add_cancel positive
  sweeps := by
    intro after victim swept
    obtain ⟨_, ⟨shards, size, rfl, smaller⟩, _⟩ := houses.of_sweepNext_some swept
    exact smaller
  clears := by
    rw [ClockCache.clear, houses.foldl_sizes]
    exact Nat.sub_add_cancel (Nat.le_refl _)

theorem intact_of_reaches {limit concurrency : Nat}
    (built : ofLimit limit concurrency = .ok fresh) (reaches : books.Reaches fresh cache) :
    cache.Intact := by
  obtain ⟨intact, uncounted, _⟩ := intact_of_ofLimit built
  exact (books.kept_of_reaches (fun request kept => Intact.accounted kept request) intact
    (congrArg ClockCounters.core uncounted) reaches).1

/-- Whatever a cache passes through is housed, also while the cache is over its limit. -/
theorem Passes.exists_houses {limit concurrency : Nat}
    (built : ofLimit limit concurrency = .ok fresh) (passes : Passes fresh cache) :
    ∃ dials map, cache.Houses dials map := by
  induction passes with
  | rests reached =>
      obtain ⟨dials, map, houses, _⟩ := intact_of_reaches built reached
      exact ⟨dials, map, houses⟩
  | @stores cache key value shards reached stored =>
      obtain ⟨dials, map, houses, _⟩ := intact_of_reaches built reached
      obtain ⟨same, step, housesAfter⟩ := houses.store key value
      rw [stored] at step
      obtain ⟨rfl, isNew⟩ := Prod.mk.inj (Except.ok.inj step)
      rw [← isNew] at housesAfter
      exact ⟨_, _, housesAfter⟩
  | sweeps passed tooMany swept inductionHypothesis =>
      obtain ⟨dials, map, houses⟩ := inductionHypothesis
      obtain ⟨_, _, housesAfter⟩ := houses.of_sweepNext_none swept
      exact ⟨_, _, housesAfter⟩

theorem neverFails_of_ofLimit {limit concurrency : Nat}
    (built : ofLimit limit concurrency = .ok fresh) :
    books.NeverFails fresh (Passes fresh) Safe := by
  obtain ⟨intact, uncounted, _⟩ := intact_of_ofLimit built
  refine books.neverFails_of_accounted (fun request kept => Intact.accounted kept request) intact
    (congrArg ClockCounters.core uncounted) fun cache passes => ?_
  obtain ⟨dials, map, houses⟩ := passes.exists_houses built
  exact houses.safe

end ClockCache

end BoundedCache
