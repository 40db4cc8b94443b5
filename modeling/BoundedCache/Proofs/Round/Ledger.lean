import BoundedCache.Proofs.Ledger
import BoundedCache.Proofs.Round.Refinement

/-!
# The ledger of a round cache

Each step of a timeline counts what its answer tells, and an eviction for each key that gives way.
-/

namespace BoundedCache

open Round

variable {κ ν : Type} [BEq κ] [Hashable κ]

/-! ## Steps of a timeline -/

section Steps

variable {timeline next : Timeline κ ν} {request : CacheRequest κ ν} {outcome : CacheOutcome κ ν}

/-- The counters grow by what the transaction adds and by one for each key that gives way. -/
theorem Round.Timeline.Step.counts (step : Timeline.Step timeline request next outcome)
    (size : Nat) :
    next.core = timeline.core +
      (⟨.cached request, .cached outcome.answer, size⟩ : Transaction κ ν).counted +
      { evictions := outcome.evicted.length } := by
  cases step <;> rfl

/-- The records that come with a step are those that go and those that are left. -/
theorem Round.Timeline.Step.balance (step : Timeline.Step timeline request next outcome) :
    Transaction.Balances
      (⟨.cached request, .cached outcome.answer, timeline.records.length⟩ : Transaction κ ν)
      next.records.length outcome.evicted.length := by
  cases step with
  | miss => exact (Transaction.balances_get ..).2 rfl
  | hit split =>
      rw [Transaction.balances_get, split]
      simp [Timeline.tally, Timeline.visit, Nat.add_assoc]
  | overwrite split =>
      rw [Transaction.balances_put, split]
      simp [Timeline.tally, Timeline.visit, Nat.add_assoc]
  | add => exact (Transaction.balances_put ..).2 rfl
  | exchange absent split =>
      rw [Transaction.balances_put, split]
      simp [Timeline.tally, Timeline.visit]
  | keep => exact (Transaction.balances_remove ..).2 rfl
  | remove split =>
      rw [Transaction.balances_remove, split]
      simp [Timeline.tally, Nat.add_assoc]
  | contains => rfl
  | size => rfl
  | clear => exact Transaction.balances_clear _

end Steps

/-! ## Caches -/

namespace RoundCache

def books : Bookkeeping κ ν (RoundCache κ ν) (CacheRequest κ ν) (CacheOutcome κ ν)
    RoundCounters where
  serve := RoundCache.serve
  asked := .cached
  told outcome := .cached outcome.answer
  size := RoundCache.size
  counters := RoundCache.counters
  core := RoundCounters.core

/-- The cache shows a timely timeline. -/
def Intact (cache : RoundCache κ ν) : Prop :=
  ∃ timeline start base, cache.Shows timeline ∧ timeline.Timely start base

variable {cache after : RoundCache κ ν}

/-- Requests that only look, and clearing, change no counter. -/
theorem counters_of_uncounted {request : CacheRequest κ ν} {outcome : CacheOutcome κ ν}
    (uncounted : (AccessRequest.cached request).isUncounted)
    (step : cache.serve request = .ok (after, outcome)) : after.counters = cache.counters := by
  cases request with
  | get | put | remove => contradiction
  | contains key =>
      cases found : cache.contains key <;> rw [serve, found] at step <;> cases step
      rfl
  | size | clear =>
      cases step
      rfl

theorem Intact.accounted (intact : cache.Intact) (request : CacheRequest κ ν) :
    ∃ after outcome, books.Accounted Intact cache request after outcome := by
  obtain ⟨timeline, start, base, shows, timely⟩ := intact
  obtain ⟨served, next, outcome, served_eq, step, showsNext⟩ := shows.serve timely request
  refine ⟨served, outcome, served_eq, ⟨next, _, _, showsNext, timely.step step⟩, ?_,
    fun uncounted => counters_of_uncounted uncounted served_eq⟩
  refine Accounts.of_counted outcome.evicted.length ?_ ?_
  · exact (showsNext.core.trans (step.counts _)).trans (by rw [← shows.core]; rfl)
  · have balance := step.balance
    rw [← shows.size, ← showsNext.size] at balance
    exact balance

omit [BEq κ] [Hashable κ] in
/-- A new cache has counted nothing. -/
theorem intact_of_ofLimit {limit : Nat} {fresh : RoundCache κ ν}
    (built : ofLimit limit = .ok fresh) : fresh.Intact ∧ fresh.core = 0 ∧ fresh.size = 0 := by
  have large : minLimit < limit := by
    by_contra small
    rw [ofLimit, if_pos (Nat.le_of_not_lt small)] at built
    contradiction
  obtain ⟨same, sameBuilt, shows⟩ := shows_of_ofLimit (κ := κ) (ν := ν) large
  rw [built] at sameBuilt
  cases sameBuilt
  exact ⟨⟨_, _, _, shows, Timeline.timely_empty large⟩, shows.core, shows.size⟩

theorem exact_of_ofLimit {limit : Nat} {fresh : RoundCache κ ν}
    (built : ofLimit limit = .ok fresh) : books.Exact fresh := by
  obtain ⟨intact, uncounted, empty⟩ := intact_of_ofLimit built
  exact books.exact_of_accounted (fun request kept => Intact.accounted kept request) intact
    uncounted empty

end RoundCache

end BoundedCache
