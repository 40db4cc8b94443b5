import BoundedCache.Proofs.Clock.Shards
import BoundedCache.Proofs.Counters

/-!
# What a clock cache counts

Each operation of a dial adds a summand to its counters that its answer determines; a sweep adds
the work it did. The counters of a cache are the sum over its shards, so they grow by what the
shard at work adds.
-/

namespace BoundedCache

open Clock

/-! ## Dials -/

namespace Clock.Dial

variable {κ ν : Type}

theorem reached_le (budget : Nat) (entries : List (Entry κ ν)) :
    (strike budget entries).reached ≤ budget := by
  induction budget generalizing entries with
  | zero => exact Nat.le_refl 0
  | succ budget inductionHypothesis =>
      cases entries with
      | nil => exact Nat.zero_le _
      | cons entry ahead =>
          rw [strike]
          split
          · exact Nat.succ_le_succ (Nat.zero_le budget)
          · have others := inductionHypothesis ahead
            simp only [Stroke.reached, List.length_cons] at others ⊢
            omega

theorem countStroke_eq_add (stroke : Stroke κ ν) (counters : ClockCounters) :
    countStroke stroke counters = counters +
      { core := .ofEviction stroke.victim
        sweeps := 1
        scanned := stroke.reached
        exhausted := if stroke.isShort then 1 else 0 } := by
  rw [countStroke]
  cases stroke.victim <;> cases stroke.isShort <;> rfl

/-- A sweep counts its victim, and scans no more than its budget allows. -/
theorem counters_sweep (dial : Dial κ ν) :
    ∃ work : ClockCounters, dial.sweep.1.counters = dial.counters + work ∧
      work.core = .ofEviction dial.sweep.2 ∧ work.scanned ≤ dial.budget := by
  rw [sweep]
  split
  · exact ⟨0, (add_zero _).symm, rfl, Nat.zero_le _⟩
  · exact ⟨_, countStroke_eq_add _ _, rfl, reached_le dial.budget dial.entries⟩

variable [BEq κ] (dial : Dial κ ν) (hash : UInt32) (key : κ)

theorem counters_get : (dial.get hash key).1.counters =
    dial.counters + { core := .ofLookup (dial.get hash key).2 } := by
  rw [get]
  cases dial.find? hash key <;> rfl

theorem counters_put (value : ν) : (dial.put hash key value).1.counters =
    dial.counters + { core := .ofPut (dial.put hash key value).2 } := by
  rw [put]
  cases dial.find? hash key <;> rfl

theorem counters_remove : (dial.remove hash key).1.counters =
    dial.counters + { core := .ofRemoval (dial.remove hash key).2 } := by
  rw [remove]
  cases dial.find? hash key <;> rfl

end Clock.Dial

/-! ## Caches -/

namespace ClockCache.Houses

variable {κ ν : Type} [BEq κ] [Hashable κ] {cache after : ClockCache κ ν}
  {dials : Nat → Dial κ ν} {map mapAfter : Std.HashMap κ ν}

/-- The counters of a cache are those of its dials, added up. -/
theorem counters (houses : cache.Houses dials map) :
    cache.counters = ∑ index ∈ Finset.range cache.geometry.shards, (dials index).counters := by
  have inTurn : cache.shards.toList.map Table.counters =
      (List.range cache.shards.size).map fun index => (dials index).counters := by
    refine List.ext_getElem (by simp) fun index inBounds _ => ?_
    have inShards : index < cache.shards.size := by simpa using inBounds
    rw [List.getElem_map, List.getElem_map, List.getElem_range]
    exact (houses.shows index inShards).counters
  calc
    cache.counters = (cache.shards.toList.map Table.counters).sum := by
      rw [ClockCache.counters, ← Array.foldl_toList, List.sum_eq_foldl, List.foldl_map]
      rfl
    _ = ∑ index ∈ Finset.range cache.shards.size, (dials index).counters := by
      rw [inTurn]
      rfl
    _ = _ := by rw [houses.sized]

/-- Where one dial counts some work, the cache counts it. -/
theorem counters_update (houses : cache.Houses dials map) {index : Nat} {dial : Dial κ ν}
    {work : ClockCounters} (inBounds : index < cache.geometry.shards)
    (housesAfter : after.Houses (Function.update dials index dial) mapAfter)
    (sameGeometry : after.geometry = cache.geometry)
    (adds : dial.counters = (dials index).counters + work) :
    after.counters = cache.counters + work := by
  rw [housesAfter.counters, houses.counters, sameGeometry]
  exact sum_update_add Dial.counters dials inBounds adds

end ClockCache.Houses

end BoundedCache
