import BoundedCache.Proofs.Access.Ledger
import BoundedCache.Proofs.Clock.Ledger
import BoundedCache.Proofs.Round.Ledger

/-!
# Exact counters

The counters of a cache say no more and no less than the ledger of its history. They are kept in
many places: the index of an access map, the shards of a clock cache and the frame of a round
cache count for themselves.
-/

namespace BoundedCache

/-- Whatever is asked of a new cache, its counters are the numbers of its lookups, hits, updates,
insertions and removals, and the entries that were inserted were removed, evicted, dropped by
clearing or popped, or are held. -/
theorem counters_are_exact {κ ν : Type} [BEq κ] [Hashable κ] [EquivBEq κ] [LawfulHashable κ] :
    (∀ (limit concurrency : Nat) (fresh : ClockCache κ ν),
      ClockCache.ofLimit limit concurrency = .ok fresh → ClockCache.books.Exact fresh) ∧
    (∀ (limit : Nat) (fresh : RoundCache κ ν),
      RoundCache.ofLimit limit = .ok fresh → RoundCache.books.Exact fresh) ∧
    ∀ capacity : Capacity, AccessMap.books.Exact (AccessMap.empty capacity : AccessMap κ ν) :=
  ⟨fun _ _ _ => ClockCache.exact_of_ofLimit, fun _ _ => RoundCache.exact_of_ofLimit,
    AccessMap.exact_empty⟩

/-- The smallest cache of each kind. -/
theorem counters_are_exact_smallest_caches :
    (∃ fresh : ClockCache Nat Nat,
      ClockCache.ofLimit 1524 16 = .ok fresh ∧ ClockCache.books.Exact fresh) ∧
    (∃ fresh : RoundCache Nat Nat,
      RoundCache.ofLimit 51 = .ok fresh ∧ RoundCache.books.Exact fresh) ∧
    AccessMap.books.Exact (AccessMap.empty ⟨1, by decide⟩ : AccessMap Nat Nat) := by
  obtain ⟨clock, round, access⟩ := counters_are_exact (κ := Nat) (ν := Nat)
  obtain ⟨clockFresh, clockBuilt⟩ := ClockCache.exists_smallest (κ := Nat) (ν := Nat)
  obtain ⟨roundFresh, roundBuilt, _⟩ :=
    RoundCache.shows_of_ofLimit (κ := Nat) (ν := Nat) (show RoundCache.minLimit < 51 by decide)
  exact ⟨⟨clockFresh, clockBuilt, clock _ _ _ clockBuilt⟩,
    ⟨roundFresh, roundBuilt, round _ _ roundBuilt⟩, access _⟩

end BoundedCache
