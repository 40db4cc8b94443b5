import BoundedCache.Proofs.Access.Safety
import BoundedCache.Proofs.Clock.Safety
import BoundedCache.Proofs.Round.Safety

/-!
# No operation fails

A slot that is read is filled, an array is read within its bounds, and no number is taken from a
smaller one. This holds of every cache that can be built, and of the states that a request passes
through as well as of those that it leaves.
-/

namespace BoundedCache

/-- Whatever is asked of a new cache, no step meets a fault, all states passed through are safe,
and the misses can be told from the counters. -/
theorem operations_never_fail {κ ν : Type} [BEq κ] [Hashable κ] [EquivBEq κ] [LawfulHashable κ] :
    (∀ (limit concurrency : Nat) (fresh : ClockCache κ ν),
      ClockCache.ofLimit limit concurrency = .ok fresh →
        ClockCache.books.NeverFails fresh (ClockCache.Passes fresh) ClockCache.Safe) ∧
    (∀ (limit : Nat) (fresh : RoundCache κ ν), RoundCache.ofLimit limit = .ok fresh →
      RoundCache.books.NeverFails fresh (RoundCache.Passes fresh) RoundCache.Safe) ∧
    ∀ capacity : Capacity, (AccessMap.books (κ := κ) (ν := ν)).NeverFails (.empty capacity)
      (AccessMap.Passes (.empty capacity)) fun map => map.entries.Safe :=
  ⟨fun _ _ _ => ClockCache.neverFails_of_ofLimit, fun _ _ => RoundCache.neverFails_of_ofLimit,
    AccessMap.neverFails_empty⟩

/-- The smallest cache of each kind. -/
theorem operations_never_fail_smallest_caches :
    (∃ fresh : ClockCache Nat Nat, ClockCache.ofLimit 1524 16 = .ok fresh ∧
      ClockCache.books.NeverFails fresh (ClockCache.Passes fresh) ClockCache.Safe) ∧
    (∃ fresh : RoundCache Nat Nat, RoundCache.ofLimit 51 = .ok fresh ∧
      RoundCache.books.NeverFails fresh (RoundCache.Passes fresh) RoundCache.Safe) ∧
    (AccessMap.books (κ := Nat) (ν := Nat)).NeverFails (.empty ⟨1, by decide⟩)
      (AccessMap.Passes (.empty ⟨1, by decide⟩)) fun map => map.entries.Safe := by
  obtain ⟨clock, round, access⟩ := operations_never_fail (κ := Nat) (ν := Nat)
  obtain ⟨clockFresh, clockBuilt⟩ := ClockCache.exists_smallest (κ := Nat) (ν := Nat)
  obtain ⟨roundFresh, roundBuilt, _⟩ :=
    RoundCache.shows_of_ofLimit (κ := Nat) (ν := Nat) (show RoundCache.minLimit < 51 by decide)
  exact ⟨⟨clockFresh, clockBuilt, clock _ _ _ clockBuilt⟩,
    ⟨roundFresh, roundBuilt, round _ _ roundBuilt⟩, access _⟩

end BoundedCache
