import BoundedCache.Proofs.Clock.Draining
import BoundedCache.Proofs.Clock.Due
import BoundedCache.Proofs.Counters

/-!
# Accesses pay for sweeps

Each insertion, update and hit leaves a visit behind, and each entry that a sweep reaches loses
one. So the accesses of a table are the entries it has scanned, the visits its entries still hold
and the visits that were lost: those of entries that were removed or cleared, and those that an
entry could not count any more.
-/

namespace BoundedCache

open Clock

/-! ## Counters that are paid for -/

namespace ClockCounters

/-- The accesses, each of which leaves a visit behind. -/
def accesses (counters : ClockCounters) : Nat :=
  counters.core.insertions + counters.core.updates + counters.core.hits

/-- The accesses left the visits that were consumed, are still held, or were lost. -/
structure Balanced (counters : ClockCounters) (held lost : Nat) : Prop where
  spent : counters.scanned + held + lost = counters.accesses
  swept : counters.sweeps ≤ counters.scanned
  ended : counters.core.evictions + counters.exhausted ≤ counters.sweeps

theorem balanced_zero : (0 : ClockCounters).Balanced 0 0 :=
  ⟨rfl, Nat.le_refl 0, Nat.le_refl 0⟩

variable {counters others : ClockCounters} {held lost : Nat}

/-- Counters of several tables are balanced together. -/
theorem Balanced.add {otherHeld otherLost : Nat} (balanced : counters.Balanced held lost)
    (otherBalanced : others.Balanced otherHeld otherLost) :
    (counters + others).Balanced (held + otherHeld) (lost + otherLost) := by
  obtain ⟨spent, swept, ended⟩ := balanced
  obtain ⟨otherSpent, otherSwept, otherEnded⟩ := otherBalanced
  refine ⟨?_, ?_, ?_⟩ <;>
    simp only [accesses, add_core, add_sweeps, add_scanned, add_exhausted, Counters.add_hits,
      Counters.add_insertions, Counters.add_updates,
      Counters.add_evictions] at spent otherSpent ⊢ <;>
    omega

/-- An access that visits an entry leaves a visit behind, unless the entry is full. -/
theorem Balanced.visit {κ ν : Type} {entry : Entry κ ν} {heldAfter : Nat}
    (balanced : counters.Balanced held lost) (inRange : entry.visits ≤ maxVisits)
    (visited : heldAfter + entry.visits = held + entry.visit.visits) (core : Counters)
    (counts : core.insertions + core.updates + core.hits = counters.accesses + 1)
    (sameEvictions : core.evictions = counters.core.evictions) :
    ∃ lostAfter, ({ counters with core } : ClockCounters).Balanced heldAfter lostAfter ∧
      (entry.visits ≠ maxVisits → lostAfter = lost) := by
  obtain ⟨spent, swept, ended⟩ := balanced
  rw [← sameEvictions] at ended
  simp only [Entry.visit] at visited
  refine ⟨lost + (entry.visits + 1 - min (entry.visits + 1) maxVisits), ⟨?_, swept, ended⟩, ?_⟩
  · simp only [accesses] at spent counts ⊢
    omega
  · omega

theorem balanced_sum {family : Nat → ClockCounters} {helds losts : Nat → Nat} (count : Nat)
    (balanced : ∀ index < count, (family index).Balanced (helds index) (losts index)) :
    (∑ index ∈ Finset.range count, family index).Balanced
      (∑ index ∈ Finset.range count, helds index) (∑ index ∈ Finset.range count, losts index) := by
  induction count with
  | zero => exact balanced_zero
  | succ count inductionHypothesis =>
      rw [Finset.sum_range_succ, Finset.sum_range_succ, Finset.sum_range_succ]
      have earlier := inductionHypothesis fun index smaller => balanced index (by omega)
      exact earlier.add (balanced count (Nat.lt_succ_self count))

/-- The accesses cover the entries scanned and the visits held, exactly so where the history was
thrifty, and the scanned entries cover the sweeps and how these ended. -/
structure Covers (counters : ClockCounters) (held : Nat) (thrifty : Prop) : Prop where
  within : counters.scanned + held ≤ counters.accesses
  exact : thrifty → counters.scanned + held = counters.accesses
  swept : counters.sweeps ≤ counters.scanned
  ended : counters.core.evictions + counters.exhausted ≤ counters.sweeps

theorem Balanced.covers {thrifty : Prop} (balanced : counters.Balanced held lost)
    (nothingLost : thrifty → lost = 0) : counters.Covers held thrifty where
  within := by
    have spent := balanced.spent
    omega
  exact isThrifty := by
    have spent := balanced.spent
    rwa [nothingLost isThrifty] at spent
  swept := balanced.swept
  ended := balanced.ended

end ClockCounters

/-! ## Dials -/

namespace Clock

variable {κ ν : Type} [BEq κ]

/-- The request takes visits away, or makes one that an entry cannot count any more. -/
def Wastes (entries : List (Entry κ ν)) : Request κ ν → Prop
  | .get hash key => ∃ entry ∈ entries, entry.holds hash key ∧ entry.visits = maxVisits
  | .put hash key _ => ∃ entry ∈ entries, entry.holds hash key ∧ entry.visits = maxVisits
  | .remove hash key => ∃ entry ∈ entries, entry.holds hash key
  | .sweep => False
  | .clear => entries ≠ []

namespace Dial

variable {dial : Dial κ ν} {lost : Nat} {hash : UInt32} {key : κ} {entry : Entry κ ν}

/-- The counters of the dial are balanced with the visits of its entries. -/
def Balanced (dial : Dial κ ν) (lost : Nat) : Prop :=
  dial.counters.Balanced (weight dial.entries) lost

/-- An entry that is found stands between entries for other keys. -/
theorem split_of_find? [PartialEquivBEq κ] (valid : Valid dial.entries)
    (found : dial.find? hash key = some entry) :
    entry.holds hash key ∧ ∃ before after, dial.entries = before ++ entry :: after ∧
      ∀ other ∈ before ++ after, ¬ other.holds hash key := by
  obtain ⟨holds, before, after, split, _⟩ := List.find?_eq_some_iff_append.1 found
  rw [split] at valid
  exact ⟨holds, before, after, split, valid.apart holds⟩

/-- The visits of the entries once the entry for a key is changed. -/
theorem weight_revise [PartialEquivBEq κ] (valid : Valid dial.entries)
    (found : dial.find? hash key = some entry) (change : Entry κ ν → Entry κ ν) :
    weight (reviseEntry change hash key dial.entries) + entry.visits =
      weight dial.entries + (change entry).visits := by
  obtain ⟨holds, before, after, split, others⟩ := split_of_find? valid found
  rw [split, reviseEntry_middle holds others]
  simp only [weight_append, weight_cons]
  omega

theorem weight_drop [PartialEquivBEq κ] (valid : Valid dial.entries)
    (found : dial.find? hash key = some entry) :
    weight (dropEntry hash key dial.entries) + entry.visits = weight dial.entries := by
  obtain ⟨holds, before, after, split, others⟩ := split_of_find? valid found
  rw [split, dropEntry_middle holds others]
  simp only [weight_append, weight_cons]
  omega

/-- An access that visits the entry for a key loses nothing, unless that entry is full. -/
theorem Balanced.revise [PartialEquivBEq κ] (balanced : dial.Balanced lost)
    (valid : Valid dial.entries) (found : dial.find? hash key = some entry)
    (change : Entry κ ν → Entry κ ν) (visited : (change entry).visits = entry.visit.visits)
    (event : Counters → Counters)
    (counts : (event dial.counters.core).insertions + (event dial.counters.core).updates +
      (event dial.counters.core).hits = dial.counters.accesses + 1)
    (sameEvictions : (event dial.counters.core).evictions = dial.counters.core.evictions) :
    ∃ lostAfter,
      ({ dial with entries := reviseEntry change hash key dial.entries }.tally event).Balanced
        lostAfter ∧
      ((¬ ∃ entry ∈ dial.entries, entry.holds hash key ∧ entry.visits = maxVisits) →
        lostAfter = lost) := by
  have member := List.mem_of_find?_eq_some found
  have held := weight_revise valid found change
  rw [visited] at held
  obtain ⟨lostAfter, balancedAfter, still⟩ :=
    ClockCounters.Balanced.visit balanced (valid.bounded entry member) held _ counts sameEvictions
  refine ⟨lostAfter, balancedAfter, fun saving => still fun full => saving ?_⟩
  exact ⟨entry, member, (split_of_find? valid found).1, full⟩

/-- A sweep consumes as many visits as it scans entries. -/
theorem Balanced.sweep (balanced : dial.Balanced lost) (valid : Valid dial.entries) :
    dial.sweep.1.Balanced lost := by
  obtain ⟨spent, swept, ended⟩ := balanced
  rw [Dial.sweep]
  split
  · exact ⟨spent, swept, ended⟩
  · rename_i someEntries
    have consumed := weight_strike valid dial.budget
    have reached := reached_pos dial.budget_pos (mt List.isEmpty_iff.2 someEntries)
    generalize strike dial.budget dial.entries = stroke at consumed reached
    have sameAccesses : (countStroke stroke dial.counters).accesses = dial.counters.accesses := by
      cases found : stroke.victim <;> simp only [countStroke, found] <;> rfl
    -- a sweep that found a victim did not run short
    have oneEnd : (countStroke stroke dial.counters).core.evictions +
        (countStroke stroke dial.counters).exhausted ≤
          dial.counters.core.evictions + dial.counters.exhausted + 1 := by
      cases found : stroke.victim with
      | some victim =>
          simp only [countStroke, Stroke.isShort, found]
          exact Nat.le_of_eq (Nat.add_right_comm _ 1 _)
      | none =>
          simp only [countStroke, Stroke.isShort, found]
          cases stroke.ahead.isEmpty
          · exact Nat.le_refl _
          · exact Nat.le_succ _
    refine ⟨?_, ?_, oneEnd.trans (Nat.succ_le_succ ended)⟩
    · rw [sameAccesses]
      simp only [countStroke]
      omega
    · simp only [countStroke]
      omega

omit [BEq κ] in
/-- Clearing loses the visits that are held. -/
theorem Balanced.clear (balanced : dial.Balanced lost) :
    dial.clear.Balanced (lost + weight dial.entries) := by
  refine ⟨?_, balanced.swept, balanced.ended⟩
  have spent := balanced.spent
  simp only [Dial.clear, weight_nil]
  omega

/-- A dial stays balanced with every request, and nothing more is lost unless it wastes visits. -/
theorem Balanced.serve [PartialEquivBEq κ] (balanced : dial.Balanced lost)
    (valid : Valid dial.entries) (request : Request κ ν) :
    ∃ lostAfter, (dial.serve request).1.Balanced lostAfter ∧
      (¬ Wastes dial.entries request → lostAfter = lost) := by
  cases request with
  | get hash key =>
      rw [Dial.serve, Dial.get]
      cases found : dial.find? hash key with
      | none => exact ⟨lost, ⟨balanced.spent, balanced.swept, balanced.ended⟩, fun _ => rfl⟩
      | some entry =>
          exact balanced.revise valid found Entry.visit rfl Counters.countHit
            (Nat.add_assoc _ _ _).symm rfl
  | put hash key value =>
      rw [Dial.serve, Dial.put]
      cases found : dial.find? hash key with
      | none =>
          refine ⟨lost, ⟨?_, balanced.swept, balanced.ended⟩, fun _ => rfl⟩
          have spent := balanced.spent
          simp only [ClockCounters.accesses] at spent
          simp only [tally, Counters.countInsertion, weight_append, weight_cons, weight_nil,
            ClockCounters.accesses]
          omega
      | some entry =>
          have counts : dial.counters.core.insertions + (dial.counters.core.updates + 1) +
              dial.counters.core.hits = dial.counters.accesses + 1 := by
            simp only [ClockCounters.accesses]
            omega
          exact balanced.revise valid found (fun entry => { entry.visit with value }) rfl
            Counters.countUpdate counts rfl
  | remove hash key =>
      rw [Dial.serve, Dial.remove]
      cases found : dial.find? hash key with
      | none => exact ⟨lost, balanced, fun _ => rfl⟩
      | some entry =>
          have dropped := weight_drop valid found
          refine ⟨lost + entry.visits, ⟨?_, balanced.swept, balanced.ended⟩, fun saving => ?_⟩
          · have spent := balanced.spent
            simp only [ClockCounters.accesses] at spent
            simp only [tally, Counters.countRemoval, ClockCounters.accesses]
            omega
          · have member := List.mem_of_find?_eq_some found
            exact absurd ⟨entry, member, (split_of_find? valid found).1⟩ saving
  | sweep => exact ⟨lost, balanced.sweep valid, fun _ => rfl⟩
  | clear =>
      refine ⟨lost + weight dial.entries, balanced.clear, fun saving => ?_⟩
      rw [not_not.1 saving, weight_nil, Nat.add_zero]

end Dial

/-! ## Tables -/

namespace Table

/-- The visits that the entries on the ring hold. -/
def visits (table : Table κ ν) : Checked Nat := do
  return weight (← table.entries)

/-- The request wastes visits of the entries on the ring. -/
def Wastes (table : Table κ ν) (request : Request κ ν) : Prop :=
  ∃ entries, table.entries = .ok entries ∧ Clock.Wastes entries request

/-- The table shows a valid dial that is balanced. -/
def Settled (table : Table κ ν) (lost : Nat) : Prop :=
  ∃ dial : Dial κ ν, table.Shows dial ∧ Valid dial.entries ∧ dial.Balanced lost

variable {table : Table κ ν} {dial : Dial κ ν}

theorem Shows.visits_eq (shows : table.Shows dial) : table.visits = .ok (weight dial.entries) := by
  rw [visits, shows.entries_eq]
  rfl

theorem Shows.wastes (shows : table.Shows dial) {request : Request κ ν}
    (wastes : Clock.Wastes dial.entries request) : table.Wastes request :=
  ⟨dial.entries, shows.entries_eq, wastes⟩

theorem Settled.serve [PartialEquivBEq κ] {lost : Nat} (settled : table.Settled lost)
    (request : Request κ ν) :
    ∃ next reply lostAfter, table.serve request = .ok (next, reply) ∧ next.Settled lostAfter ∧
      (¬ table.Wastes request → lostAfter = lost) := by
  obtain ⟨dial, shows, valid, balanced⟩ := settled
  obtain ⟨next, step, showsNext, _⟩ := shows.serve request
  obtain ⟨lostAfter, balancedAfter, still⟩ := balanced.serve valid request
  exact ⟨next, _, lostAfter, step, ⟨_, showsNext, Dial.valid_serve valid request, balancedAfter⟩,
    fun saving => still (mt shows.wastes saving)⟩

theorem covers_of_ofBuckets [PartialEquivBEq κ] {buckets : Nat} {fresh : Table κ ν}
    (built : ofBuckets buckets = .ok fresh) (past : List (Request κ ν)) :
    ∃ table replies held, serveAll Table.serve fresh past = .ok (table, replies) ∧
      table.visits = .ok held ∧
      table.counters.Covers held
        (Throughout Table.serve (fun table request => ¬ table.Wastes request) fresh past) := by
  have settled : fresh.Settled 0 :=
    ⟨Dial.empty, shows_of_ofBuckets built, valid_nil, ClockCounters.balanced_zero⟩
  obtain ⟨table, replies, lost, run, ⟨dial, shows, _, balanced⟩, nothingLost⟩ :=
    serveAll_keeps_measure (fun request settled => settled.serve request) past settled
  refine ⟨table, replies, _, run, shows.visits_eq, ?_⟩
  rw [shows.counters]
  exact balanced.covers nothingLost

end Table

end Clock

end BoundedCache
