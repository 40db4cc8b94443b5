import BoundedCache.Proofs.Access.Slots
import BoundedCache.Proofs.Clock.Slots
import BoundedCache.Proofs.Round.Slots

/-!
# Caches use their slots again

No cache loses a slot, however long it is used: slots that removals and evictions empty are filled
again before new ones are made. What a cache or a shard needs at most is decided by the state amid a
put. A clock cache and a round cache store the new entry first and evict then, an access map drops
an entry first.
-/

namespace BoundedCache

/-- Whatever is asked of a new cache, there are as many slots as were needed for the most entries
held at once since the last clear, and none is made while there are enough. A shard of a clock cache
needs one slot for each bucket and one for its hand beside those for its entries, and so does a
clock table that is used on its own. A round cache has at most one slot more than its limit, and an
access map two more than its capacity. -/
theorem caches_use_slots_again {κ ν : Type} [BEq κ] [Hashable κ] [EquivBEq κ] [LawfulHashable κ] :
    (∀ (buckets : Nat) (fresh : Clock.Table κ ν), Clock.Table.ofBuckets buckets = .ok fresh →
      (Clock.Table.storage buckets).Economical fresh) ∧
    (∀ (limit concurrency : Nat) (fresh : ClockCache κ ν),
      ClockCache.ofLimit limit concurrency = .ok fresh → ∀ index < fresh.shardCount,
        (ClockCache.shardStorage (ClockCache.shardAt fresh.shards index).buckets index).Economical
          fresh) ∧
    (∀ (limit : Nat) (fresh : RoundCache κ ν), RoundCache.ofLimit limit = .ok fresh →
      RoundCache.storage.Economical fresh ∧ RoundCache.storage.Within fresh (limit + 1)) ∧
    ∀ capacity : Capacity, AccessMap.storage.Economical (.empty capacity : AccessMap κ ν) ∧
      AccessMap.storage.Within (.empty capacity : AccessMap κ ν) (capacity.val + 2) :=
  ⟨fun _ _ => Clock.Table.economical_of_ofBuckets,
    fun _ _ _ built _ => ClockCache.economical_of_ofLimit built,
    fun _ _ => RoundCache.economical_of_ofLimit, AccessMap.economical_empty⟩

/-- A table of eight buckets, and the smallest cache of each kind with the first shard of the clock
cache. -/
theorem caches_use_slots_again_smallest_caches :
    (Clock.Table.storage 8).Economical (.empty 8 : Clock.Table Nat Nat) ∧
    (∃ fresh : ClockCache Nat Nat, ClockCache.ofLimit 1524 16 = .ok fresh ∧
      0 < fresh.shardCount ∧
      (ClockCache.shardStorage (ClockCache.shardAt fresh.shards 0).buckets 0).Economical fresh) ∧
    (∃ fresh : RoundCache Nat Nat, RoundCache.ofLimit 51 = .ok fresh ∧
      RoundCache.storage.Economical fresh ∧ RoundCache.storage.Within fresh 52) ∧
    AccessMap.storage.Economical (.empty ⟨1, by decide⟩ : AccessMap Nat Nat) ∧
      AccessMap.storage.Within (.empty ⟨1, by decide⟩ : AccessMap Nat Nat) 3 := by
  obtain ⟨table, clock, round, access⟩ := caches_use_slots_again (κ := Nat) (ν := Nat)
  obtain ⟨clockFresh, clockBuilt⟩ := ClockCache.exists_smallest (κ := Nat) (ν := Nat)
  have houses := (ClockCache.Houses.ofLimit clockBuilt).1
  have first : 0 < clockFresh.shardCount := houses.shards_pos.trans_eq houses.sized.symm
  obtain ⟨roundFresh, roundBuilt, _⟩ :=
    RoundCache.shows_of_ofLimit (κ := Nat) (ν := Nat) (show RoundCache.minLimit < 51 by decide)
  exact ⟨table 8 _ (if_pos (by decide)),
    ⟨clockFresh, clockBuilt, first, clock _ _ _ clockBuilt 0 first⟩,
    ⟨roundFresh, roundBuilt, round _ _ roundBuilt⟩, access _⟩

end BoundedCache
