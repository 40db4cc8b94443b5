import BoundedCache.Proofs.Clock.Geometry
import BoundedCache.Round.Cache

/-!
# Minimal limits

A refusal reports a minimum, in a text that asks for more than it. For round caches exactly the
limits above the reported minimum are accepted. Clock caches report the fewest buckets of all shards
together, but measure a limit by three quarters of the shards, so they accept some limits that the
text excludes.
-/

namespace BoundedCache

open Clock Geometry

/-! ## Refusals and what they report -/

namespace Sizing

variable {σ : Type} {build : Nat → Except SizingError σ} {inReach : Nat → Prop}
  {least reported : Nat}

/-- A cache is built for the limit. -/
def Accepts (build : Nat → Except SizingError σ) (limit : Nat) : Prop :=
  ∃ cache, build limit = .ok cache

/-- The minimum that a refusal reports is the real one: of the limits in reach, those above it are
accepted and no others. -/
def ReportsMinimum (build : Nat → Except SizingError σ) (inReach : Nat → Prop) : Prop :=
  ∀ limit requested minimum, build limit = .error (.capacityTooSmall requested minimum) →
    ∀ other, inReach other → (Accepts build other ↔ minimum < other)

/-- The least limit that is accepted, and the minimum that is reported for lower ones. -/
structure Threshold (build : Nat → Except SizingError σ) (inReach : Nat → Prop)
    (least reported : Nat) : Prop where
  accepts_iff : ∀ limit, inReach limit → (Accepts build limit ↔ least ≤ limit)
  refuses_iff : ∀ limit requested minimum,
    build limit = .error (.capacityTooSmall requested minimum) ↔
      limit < least ∧ requested = limit ∧ minimum = reported

/-- A reported minimum is real if it comes right before the least limit that is accepted. -/
theorem Threshold.reportsMinimum_iff (threshold : Threshold build inReach least reported)
    (positive : 0 < least) (leastInReach : inReach least) (nextInReach : inReach (reported + 1)) :
    ReportsMinimum build inReach ↔ least = reported + 1 := by
  constructor
  · intro reports
    have real := reports 0 0 reported ((threshold.refuses_iff ..).2 ⟨positive, rfl, rfl⟩)
    have notAbove : reported < least :=
      (real least leastInReach).1 ((threshold.accepts_iff least leastInReach).2 le_rfl)
    have notBelow : least ≤ reported + 1 :=
      (threshold.accepts_iff _ nextInReach).1 ((real _ nextInReach).2 (Nat.lt_succ_self reported))
    exact Nat.le_antisymm notBelow notAbove
  · intro adjacent limit requested minimum refused other otherInReach
    obtain ⟨_, _, rfl⟩ := (threshold.refuses_iff ..).1 refused
    rw [threshold.accepts_iff other otherInReach, adjacent, Nat.succ_le_iff]

end Sizing

open Sizing

/-! ## Clock caches -/

namespace ClockCache

variable {κ ν : Type} {limit concurrency : Nat}

/-- A limit at which 32-bit hash codes can select every bucket of a shard. -/
def InReach (concurrency limit : Nat) : Prop :=
  limit / threeQuarters concurrency < 2 ^ 31

theorem inReach_of_le (low : limit ≤ 128 * Geometry.shardCount concurrency + 1) :
    InReach concurrency limit := by
  have quarters := four_mul_threeQuarters concurrency
  have positive := threeQuarters_pos concurrency
  rw [InReach, Nat.div_lt_iff_lt_mul positive]
  omega

theorem threshold (concurrency : Nat) :
    Threshold (fun limit => ofLimit (κ := κ) (ν := ν) limit concurrency) (InReach concurrency)
      (127 * threeQuarters concurrency) (128 * Geometry.shardCount concurrency) := by
  constructor
  · intro limit inReach
    by_cases low : limit < 127 * threeQuarters concurrency
    · rw [Accepts]
      simp only [ofLimit_of_lt low]
      exact ⟨nofun, fun high => absurd low (Nat.not_lt.2 high)⟩
    · have high := Nat.not_lt.1 low
      obtain ⟨fresh, built, _⟩ := exists_ofLimit_of_le (κ := κ) (ν := ν) high inReach
      exact ⟨fun _ => high, fun _ => ⟨fresh, built⟩⟩
  · intro limit requested minimum
    by_cases low : limit < 127 * threeQuarters concurrency
    · simp only [ofLimit_of_lt low, Except.error.injEq, SizingError.capacityTooSmall.injEq, low,
        true_and]
      exact and_congr eq_comm eq_comm
    · have divided := Geometry.ofLimit_of_le (Nat.not_lt.1 low)
      simp only [unbuilt_iff divided, low, false_and, reduceCtorEq, and_false]

end ClockCache

/-! ## Round caches -/

theorem RoundCache.threshold {κ ν : Type} :
    Threshold (RoundCache.ofLimit (κ := κ) (ν := ν)) (fun _ => True) 51 50 := by
  constructor
  · intro limit _
    rw [Accepts, RoundCache.ofLimit]
    split
    · rename_i low
      exact ⟨nofun, fun high => absurd high (Nat.not_le.2 (Nat.lt_succ_of_le low))⟩
    · rename_i high
      exact ⟨fun _ => Nat.not_le.1 high, fun _ => ⟨_, rfl⟩⟩
  · intro limit requested minimum
    rw [RoundCache.ofLimit]
    split
    · rename_i low
      rw [Except.error.injEq, SizingError.capacityTooSmall.injEq]
      exact ⟨fun same => ⟨Nat.lt_succ_of_le low, same.1.symm, same.2.symm⟩,
        fun same => ⟨same.2.1.symm, same.2.2.symm⟩⟩
    · rename_i high
      exact ⟨nofun, fun same => absurd (Nat.le_of_lt_succ same.1) high⟩

/-! ## Both -/

/-- What refusals for a low limit report. Round caches report the real minimum. What clock caches
report is above the least limit that they accept. -/
theorem minimum_of_refusals {κ ν : Type} :
    (∀ concurrency,
      Threshold (fun limit => ClockCache.ofLimit (κ := κ) (ν := ν) limit concurrency)
        (ClockCache.InReach concurrency) (127 * (3 * shardCount concurrency / 4))
        (128 * shardCount concurrency) ∧
      127 * (3 * shardCount concurrency / 4) < 128 * shardCount concurrency) ∧
    Threshold (RoundCache.ofLimit (κ := κ) (ν := ν)) (fun _ => True) 51 50 ∧
    ReportsMinimum (RoundCache.ofLimit (κ := κ) (ν := ν)) fun _ => True := by
  refine ⟨?_, RoundCache.threshold, ?_⟩
  · intro concurrency
    have quarters := four_mul_threeQuarters concurrency
    have positive := threeQuarters_pos concurrency
    rw [← threeQuarters_eq]
    exact ⟨ClockCache.threshold concurrency, by omega⟩
  · exact (RoundCache.threshold.reportsMinimum_iff (by decide) trivial trivial).2 rfl

/-- With sixteen shards a limit of 1000 is refused as not greater than 2048, while 1524 is
accepted. -/
theorem not_reportsMinimum_sixteen_shards :
    ClockCache.ofLimit (κ := Nat) (ν := Nat) 1000 16 = .error (.capacityTooSmall 1000 2048) ∧
      Accepts (fun limit => ClockCache.ofLimit (κ := Nat) (ν := Nat) limit 16) 1524 ∧
      ¬ ReportsMinimum (fun limit => ClockCache.ofLimit (κ := Nat) (ν := Nat) limit 16)
        (ClockCache.InReach 16) := by
  have shards : shardCount 16 = 16 := by decide +kernel
  have threshold := ClockCache.threshold (κ := Nat) (ν := Nat) 16
  have least : 127 * threeQuarters 16 = 1524 := by rw [threeQuarters, shards]
  rw [least, shards] at threshold
  have inReach : ClockCache.InReach 16 1524 := ClockCache.inReach_of_le (by rw [shards]; decide)
  have nextInReach : ClockCache.InReach 16 2049 := ClockCache.inReach_of_le (by rw [shards])
  refine ⟨(threshold.refuses_iff ..).2 (by decide), (threshold.accepts_iff _ inReach).2 le_rfl, ?_⟩
  rw [threshold.reportsMinimum_iff (by decide) inReach nextInReach]
  decide

end BoundedCache
