import BoundedCache.Proofs.Round.Ledger

/-!
# A round cache does not fail

As many slots are filled as a round cache counts entries. A removal has found its entry before, and
a cache over its limit finds a victim at its tail, so neither number is asked for more than it has.
-/

namespace BoundedCache

open Round

variable {κ ν : Type}

/-! ## Losing one entry -/

/-- One entry is gone, from the entries as well as from the filled slots. -/
structure RoundCache.LosesOne (before after : RoundCache κ ν) : Prop where
  size : after.size + 1 = before.size
  occupied : after.list.nodes.occupied + 1 = before.list.nodes.occupied

theorem Round.Layout.losesOne {cache after : RoundCache κ ν} {cells rest : List (Cell κ ν)}
    (layout : Layout cache cells) (layoutAfter : Layout after rest)
    (fewer : rest.length + 1 = cells.length) : cache.LosesOne after where
  size := by rw [layoutAfter.size, layout.size, fewer]
  occupied := by rw [layoutAfter.occupied, layout.occupied, fewer]

namespace RoundCache

variable [BEq κ] [Hashable κ]

/-! ## Safe states -/

/-- A hash code can be divided by the number of buckets, and where a slot is emptied there was an
entry to be counted off. -/
structure Safe (cache : RoundCache κ ν) : Prop where
  buckets_pos : 0 < cache.buckets.size
  removes : ∀ {key index after value},
    cache.find (HashCode.shifted key) key = .ok (some index) →
    cache.remove key = .ok (after, value) → cache.LosesOne after
  evicts : ∀ {after eviction}, cache.limit < cache.size →
    cache.evict = .ok (after, eviction) → cache.LosesOne after

/-- The states that a cache passes through: those between two requests, and that of a put which
has added a new key. -/
inductive Passes (fresh : RoundCache κ ν) : RoundCache κ ν → Prop where
  | rests {cache : RoundCache κ ν} (reached : books.Reaches fresh cache) : Passes fresh cache
  | adds {cache added : RoundCache κ ν} {key : κ} {value : ν}
      (reached : books.Reaches fresh cache)
      (missed : cache.find (HashCode.shifted key) key = .ok none)
      (step : cache.add (HashCode.shifted key) key value = .ok added) : Passes fresh added

variable {cache fresh : RoundCache κ ν} {cells : List (Cell κ ν)}

theorem safe_of_layout (layout : Layout cache cells)
    (due : cache.limit < cache.size → ∃ before index record,
      cells = before ++ [(index, record)] ∧ record.time ≤ cache.list.headers.last) :
    cache.Safe where
  buckets_pos := layout.housed.positive
  removes := by
    intro key index after value found removed
    rcases layout.find_cases (HashCode.shifted key) key with ⟨missed, _⟩ |
      ⟨before, slot, record, behind, isFound, rfl, _⟩
    · cases found.symm.trans missed
    · obtain ⟨result, step, layoutAfter, _⟩ := layout.remove isFound
      rw [removed] at step
      cases step
      refine layout.losesOne layoutAfter ?_
      simp only [List.length_append, List.length_cons]
      omega
  evicts := by
    intro after eviction tooMany evicted
    obtain ⟨before, index, record, rfl, isDue⟩ := due tooMany
    obtain ⟨result, entry, step, _, layoutAfter, _⟩ := layout.evict isDue
    rw [evicted] at step
    cases step
    exact layout.losesOne layoutAfter (by simp)

theorem intact_of_reaches {limit : Nat} (built : ofLimit limit = .ok fresh)
    (reaches : books.Reaches fresh cache) : cache.Intact := by
  obtain ⟨intact, uncounted, _⟩ := intact_of_ofLimit built
  exact (books.kept_of_reaches (fun request kept => Intact.accounted kept request) intact
    uncounted reaches).1

theorem Passes.safe {limit : Nat} (built : ofLimit limit = .ok fresh)
    (passes : Passes fresh cache) : cache.Safe := by
  cases passes with
  | rests reached =>
      obtain ⟨timeline, start, base, shows, timely⟩ := intact_of_reaches built reached
      obtain ⟨cells, layout, _⟩ := shows.laidOut
      refine safe_of_layout layout fun tooMany => ?_
      have bounded := timely.bounded
      rw [shows.size, shows.limit] at tooMany
      omega
  | @adds earlier _ key value reached missed adds =>
      obtain ⟨timeline, start, base, shows, timely⟩ := intact_of_reaches built reached
      by_cases full : timeline.limit ≤ timeline.records.length
      · obtain ⟨same, slot, before, last, oldest, step, layout, _, due, _⟩ :=
          shows.add_full timely key value full
        rw [adds] at step
        cases step
        exact safe_of_layout layout fun _ => ⟨_, last, oldest, rfl, due⟩
      · obtain ⟨same, slot, cells, step, layout, _, limit, size, _⟩ := shows.add key value
        rw [adds] at step
        cases step
        refine safe_of_layout layout fun tooMany => ?_
        rw [limit, size] at tooMany
        omega

theorem neverFails_of_ofLimit {limit : Nat} (built : ofLimit limit = .ok fresh) :
    books.NeverFails fresh (Passes fresh) Safe := by
  obtain ⟨intact, uncounted, _⟩ := intact_of_ofLimit built
  exact books.neverFails_of_accounted (fun request kept => Intact.accounted kept request) intact
    uncounted fun cache passes => passes.safe built

end RoundCache

end BoundedCache
