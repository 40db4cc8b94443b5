import BoundedCache.Proofs.Clock.Shards
import Mathlib.Order.Bounds.Basic
import Mathlib.SetTheory.Cardinal.Finite

/-!
# What a geometry comes to

The number of shards is rounded up to a power of two, a shard's share of the limit is rounded down,
and the number of buckets is rounded up again. Here the roundings are taken together: which limits
are refused, which tables the others get, and how evenly the hash codes fall on the shards.
-/

namespace BoundedCache

open Clock

namespace Clock

/-! ## Rounding up to a power of two -/

open private Nat.nextPowerOfTwo.go from Init.Data.Nat.Power2.Basic in
theorem nextPowerOfTwo_le {wanted bits : Nat} (enough : wanted ≤ 2 ^ bits) :
    wanted.nextPowerOfTwo ≤ 2 ^ bits := by
  -- The search doubles a power of two only while it is below the wanted number.
  have stops : ∀ power (positive : 0 < power) (smaller : Nat), power = 2 ^ smaller →
      smaller ≤ bits → Nat.nextPowerOfTwo.go wanted power positive ≤ 2 ^ bits := by
    intro power positive
    fun_induction Nat.nextPowerOfTwo.go wanted power positive with
    | case1 power positive below inductionHypothesis =>
        intro smaller isPower bounded
        subst isPower
        have strictly : smaller < bits :=
          (Nat.pow_lt_pow_iff_right Nat.one_lt_two).1 (Nat.lt_of_lt_of_le below enough)
        apply inductionHypothesis (smaller + 1)
        · exact (Nat.pow_succ ..).symm
        · exact strictly
    | case2 power positive reached =>
        intro smaller isPower bounded
        subst isPower
        exact Nat.pow_le_pow_right Nat.two_pos bounded
  exact stops 1 Nat.one_pos 0 rfl (Nat.zero_le bits)

theorem isLeast_nextPowerOfTwo (wanted : Nat) :
    IsLeast {power : Nat | power.isPowerOfTwo ∧ wanted ≤ power} wanted.nextPowerOfTwo := by
  constructor
  · exact ⟨Nat.isPowerOfTwo_nextPowerOfTwo wanted, le_nextPowerOfTwo wanted⟩
  · intro power reaches
    obtain ⟨⟨bits, rfl⟩, enough⟩ := reaches
    exact nextPowerOfTwo_le enough

namespace Geometry

/-! ## The number of shards -/

theorem shardCount_eq_pow (concurrency : Nat) :
    ∃ bits, shardCount concurrency = 2 ^ bits ∧ 4 ≤ bits ∧ bits ≤ 14 := by
  have bounded : min (max concurrency minShards) maxShards ≤ 2 ^ 14 := Nat.min_le_right ..
  have many : 2 ^ 4 ≤ min (max concurrency minShards) maxShards := by
    simp only [minShards, maxShards]
    omega
  obtain ⟨bits, power⟩ : (shardCount concurrency).isPowerOfTwo :=
    Nat.isPowerOfTwo_nextPowerOfTwo _
  have lower : 2 ^ 4 ≤ 2 ^ bits := power ▸ many.trans (le_nextPowerOfTwo _)
  have upper : 2 ^ bits ≤ 2 ^ 14 := power ▸ nextPowerOfTwo_le bounded
  exact ⟨bits, power, (Nat.pow_le_pow_iff_right Nat.one_lt_two).1 lower,
    (Nat.pow_le_pow_iff_right Nat.one_lt_two).1 upper⟩

/-- The number of shards is a multiple of four, so three quarters of it are not rounded. -/
theorem shardCount_eq_four_mul (concurrency : Nat) :
    ∃ quarter, shardCount concurrency = 4 * quarter ∧ 4 ≤ quarter ∧ quarter ≤ 4096 := by
  obtain ⟨bits, power, lower, upper⟩ := shardCount_eq_pow concurrency
  obtain ⟨more, rfl⟩ := Nat.exists_eq_add_of_le lower
  have four : 2 ^ (4 + more) = 4 * (4 * 2 ^ more) := by
    rw [Nat.pow_add]
    omega
  have positive := Nat.two_pow_pos more
  have bounded : 2 ^ (4 + more) ≤ 2 ^ 14 := Nat.pow_le_pow_right Nat.two_pos upper
  exact ⟨4 * 2 ^ more, power.trans four, by omega, by omega⟩

/-! ## Hash codes -/

theorem toNat_join {shift index lower : Nat} (fits : (index + 1) * 2 ^ shift ≤ 2 ^ 32)
    (small : lower < 2 ^ shift) :
    (UInt32.ofNat (2 ^ shift * index + lower)).toNat = 2 ^ shift * index + lower := by
  apply UInt32.toNat_ofNat_of_lt'
  calc
    2 ^ shift * index + lower < 2 ^ shift * index + 2 ^ shift := Nat.add_lt_add_left small _
    _ = (index + 1) * 2 ^ shift := by rw [Nat.succ_mul, Nat.mul_comm]
    _ ≤ UInt32.size := fits

/-- The hash codes with the same upper bits, numbered by their lower bits. -/
def lowerBits {shift index : Nat} (fits : (index + 1) * 2 ^ shift ≤ 2 ^ 32) :
    {hash : UInt32 // hash.toNat / 2 ^ shift = index} ≃ Fin (2 ^ shift) where
  toFun hash := ⟨hash.1.toNat % 2 ^ shift, Nat.mod_lt _ (Nat.two_pow_pos shift)⟩
  invFun lower := by
    refine ⟨UInt32.ofNat (2 ^ shift * index + lower), ?_⟩
    rw [toNat_join fits lower.2, Nat.mul_add_div (Nat.two_pow_pos _), Nat.div_eq_of_lt lower.2,
      Nat.add_zero]
  left_inv hash := by
    obtain ⟨hash, rfl⟩ := hash
    simp only [Nat.div_add_mod, UInt32.ofNat_toNat]
  right_inv lower := by
    apply Fin.ext
    dsimp only
    rw [toNat_join fits lower.2, Nat.mul_add_mod, Nat.mod_eq_of_lt lower.2]

/-- A geometry routes a hash code by its upper bits alone, and routes equally many hash codes to
each shard. -/
structure Spreads (geometry : Geometry) : Prop where
  shift : geometry.shift < 32
  upperBits : ∀ hash : UInt32, geometry.shardOf hash = hash.toNat >>> geometry.shift
  inBounds : ∀ hash : UInt32, hash.toNat >>> geometry.shift < geometry.shards
  evenly : ∀ index < geometry.shards,
    Nat.card {hash : UInt32 // geometry.shardOf hash = index} = 2 ^ 32 / geometry.shards

theorem spreads_of_pow {bits buckets : Nat} (positive : 0 < bits) (bounded : bits ≤ 32) :
    Spreads ⟨2 ^ bits, 32 - bits, buckets⟩ := by
  have whole : 2 ^ bits * 2 ^ (32 - bits) = 2 ^ 32 := by
    rw [← Nat.pow_add, Nat.add_sub_cancel' bounded]
  have inBounds : ∀ hash : UInt32, hash.toNat >>> (32 - bits) < 2 ^ bits := by
    intro hash
    rw [Nat.shiftRight_eq_div_pow]
    apply Nat.div_lt_of_lt_mul
    rw [Nat.mul_comm, whole]
    exact hash.toNat_lt
  have upperBits : ∀ hash : UInt32,
      (⟨2 ^ bits, 32 - bits, buckets⟩ : Geometry).shardOf hash = hash.toNat >>> (32 - bits) := by
    intro hash
    rw [shardOf, Nat.and_two_pow_sub_one_eq_mod, Nat.mod_eq_of_lt (inBounds hash)]
  refine ⟨Nat.sub_lt (by decide) positive, upperBits, inBounds, ?_⟩
  intro index smaller
  have fits : (index + 1) * 2 ^ (32 - bits) ≤ 2 ^ 32 :=
    whole ▸ Nat.mul_le_mul_right _ smaller
  simp only [upperBits, Nat.shiftRight_eq_div_pow]
  rw [Nat.card_congr (lowerBits fits), Nat.card_fin, ← whole,
    Nat.mul_div_cancel_left _ (Nat.two_pow_pos bits)]

theorem spreads_shardCount (concurrency buckets : Nat) :
    Spreads ⟨shardCount concurrency, 32 - (shardCount concurrency).log2, buckets⟩ := by
  obtain ⟨bits, power, lower, upper⟩ := shardCount_eq_pow concurrency
  rw [power, Nat.log2_two_pow]
  exact spreads_of_pow (by omega) (by omega)

/-! ## Limits and buckets -/

/-- Three quarters of the number of shards. The limit is divided by them, since at the limit three
quarters of the buckets are to be filled. -/
def threeQuarters (concurrency : Nat) : Nat :=
  shardCount concurrency * 3 / 4

theorem threeQuarters_eq (concurrency : Nat) :
    threeQuarters concurrency = 3 * shardCount concurrency / 4 := by
  rw [threeQuarters, Nat.mul_comm]

theorem four_mul_threeQuarters (concurrency : Nat) :
    4 * threeQuarters concurrency = 3 * shardCount concurrency := by
  obtain ⟨quarter, shards, _, _⟩ := shardCount_eq_four_mul concurrency
  rw [threeQuarters, shards]
  omega

theorem twelve_le_threeQuarters (concurrency : Nat) : 12 ≤ threeQuarters concurrency := by
  obtain ⟨quarter, shards, lower, _⟩ := shardCount_eq_four_mul concurrency
  have := four_mul_threeQuarters concurrency
  omega

theorem threeQuarters_pos (concurrency : Nat) : 0 < threeQuarters concurrency :=
  Nat.lt_of_lt_of_le (by decide) (twelve_le_threeQuarters concurrency)

/-- The geometry of a cache with a limit that is not refused. -/
def forLimit (limit concurrency : Nat) : Geometry :=
  ⟨shardCount concurrency, 32 - (shardCount concurrency).log2,
    (limit / threeQuarters concurrency + 1).nextPowerOfTwo⟩

theorem isLeast_buckets (limit concurrency : Nat) :
    IsLeast {power : Nat | power.isPowerOfTwo ∧ limit / threeQuarters concurrency < power}
      (forLimit limit concurrency).buckets :=
  isLeast_nextPowerOfTwo _

/-- At the limit fewer than three quarters of all buckets are filled. -/
theorem four_mul_limit_lt (limit concurrency : Nat) :
    4 * limit < 3 * shardCount concurrency * (forLimit limit concurrency).buckets := by
  have room : limit < (forLimit limit concurrency).buckets * threeQuarters concurrency :=
    (Nat.div_lt_iff_lt_mul (threeQuarters_pos concurrency)).1
      (isLeast_buckets limit concurrency).1.2
  calc
    4 * limit < 4 * ((forLimit limit concurrency).buckets * threeQuarters concurrency) :=
      Nat.mul_lt_mul_of_pos_left room (by decide)
    _ = 3 * shardCount concurrency * (forLimit limit concurrency).buckets := by
      rw [← four_mul_threeQuarters, Nat.mul_comm _ (threeQuarters concurrency), Nat.mul_assoc]

theorem wantedBuckets_lt_iff (limit concurrency : Nat) :
    wantedBuckets limit (shardCount concurrency) < minBuckets ↔
      limit < 127 * threeQuarters concurrency := by
  rw [← Nat.div_lt_iff_lt_mul (threeQuarters_pos concurrency)]
  exact Nat.succ_lt_succ_iff

theorem ofLimit_of_lt {limit concurrency : Nat} (low : limit < 127 * threeQuarters concurrency) :
    ofLimit limit concurrency =
      .error (.capacityTooSmall limit (128 * shardCount concurrency)) := by
  rw [Nat.mul_comm 128]
  exact if_pos ((wantedBuckets_lt_iff limit concurrency).2 low)

theorem ofLimit_of_le {limit concurrency : Nat} (high : 127 * threeQuarters concurrency ≤ limit) :
    ofLimit limit concurrency = .ok (forLimit limit concurrency) :=
  if_neg fun low => Nat.not_lt.2 high ((wantedBuckets_lt_iff limit concurrency).1 low)

theorem refused_iff (limit concurrency : Nat) (cause : SizingError) :
    ofLimit limit concurrency = .error cause ↔
      limit < 127 * threeQuarters concurrency ∧
        cause = .capacityTooSmall limit (128 * shardCount concurrency) := by
  by_cases low : limit < 127 * threeQuarters concurrency
  · rw [ofLimit_of_lt low, Except.error.injEq]
    exact ⟨fun same => ⟨low, same.symm⟩, fun same => same.2.symm⟩
  · rw [ofLimit_of_le (Nat.not_lt.1 low)]
    exact ⟨nofun, fun same => absurd same.1 low⟩

/-- A geometry is handed out only for a limit that is not refused. -/
theorem of_ofLimit_eq_ok {limit concurrency : Nat} {geometry : Geometry}
    (divided : ofLimit limit concurrency = .ok geometry) :
    127 * threeQuarters concurrency ≤ limit ∧ geometry = forLimit limit concurrency := by
  by_cases low : limit < 127 * threeQuarters concurrency
  · rw [ofLimit_of_lt low] at divided
    contradiction
  · have high := Nat.not_lt.1 low
    rw [ofLimit_of_le high] at divided
    exact ⟨high, (Except.ok.inj divided).symm⟩

theorem minBuckets_le {limit concurrency : Nat} (high : 127 * threeQuarters concurrency ≤ limit) :
    128 ≤ (forLimit limit concurrency).buckets := by
  have enough : 127 ≤ limit / threeQuarters concurrency :=
    (Nat.le_div_iff_mul_le (threeQuarters_pos concurrency)).2 high
  exact Nat.lt_of_le_of_lt enough (isLeast_buckets limit concurrency).1.2

/-- A table takes 32-bit hash codes, so half of that range is the largest number of buckets. -/
theorem isBucketCount_forLimit_iff (limit concurrency : Nat) :
    Table.isBucketCount (forLimit limit concurrency).buckets ↔
      limit / threeQuarters concurrency < 2 ^ 31 := by
  obtain ⟨⟨isPower, exceeds⟩, least⟩ := isLeast_buckets limit concurrency
  constructor
  · intro isCount
    have small : (forLimit limit concurrency).buckets < 2 ^ 32 := by
      rw [Table.isBucketCount, Bool.and_eq_true] at isCount
      exact of_decide_eq_true isCount.2
    obtain ⟨bits, power⟩ := isPower
    rw [power] at small exceeds
    have bounded : bits < 32 := (Nat.pow_lt_pow_iff_right Nat.one_lt_two).1 small
    exact exceeds.trans_le (Nat.pow_le_pow_right Nat.two_pos (Nat.le_of_lt_succ bounded))
  · intro below
    apply Table.isBucketCount_of_power isPower
    exact (least ⟨⟨31, rfl⟩, below⟩).trans_lt (by decide)

/-! ## The same in words of 64 bits -/

/-- A number, if a word holds it. -/
def inWord (value : Nat) : Option Nat :=
  if value < 2 ^ 64 then some value else none

/-- A difference, if it is not negative. -/
def inWordSub (value less : Nat) : Option Nat :=
  if less ≤ value then some (value - less) else none

/-- A quotient, if the divisor is not zero. -/
def inWordDiv (value divisor : Nat) : Option Nat :=
  if divisor = 0 then none else some (value / divisor)

/-- The division of a cache, step by step in words. There is none if a step overflows or divides by
zero. -/
def inWords (limit concurrency : Nat) : Option (Except SizingError Geometry) := do
  let shards ← inWord (shardCount concurrency)
  let shift ← inWordSub 32 shards.log2
  let tripled ← inWord (shards * 3)
  let divisor ← inWordDiv tripled 4
  let quotient ← inWordDiv limit divisor
  let wanted ← inWord (quotient + 1)
  if wanted < minBuckets then
    let minimum ← inWord (shards * minBuckets)
    return .error (.capacityTooSmall limit minimum)
  else
    let buckets ← inWord wanted.nextPowerOfTwo
    return .ok ⟨shards, shift, buckets⟩

theorem inWord_of_lt {value : Nat} (fits : value < 2 ^ 64) : inWord value = some value :=
  if_pos fits

theorem inWordSub_of_le {value less : Nat} (enough : less ≤ value) :
    inWordSub value less = some (value - less) :=
  if_pos enough

theorem inWordDiv_of_pos {divisor : Nat} (value : Nat) (positive : 0 < divisor) :
    inWordDiv value divisor = some (value / divisor) :=
  if_neg (Nat.ne_of_gt positive)

/-- No step of the division leaves the words. -/
theorem inWords_eq (limit : UInt64) (concurrency : Nat) :
    inWords limit.toNat concurrency = some (ofLimit limit.toNat concurrency) := by
  obtain ⟨bits, power, lower, upper⟩ := shardCount_eq_pow concurrency
  have few : shardCount concurrency ≤ 2 ^ 14 := power ▸ Nat.pow_le_pow_right Nat.two_pos upper
  have quotientBound : limit.toNat / threeQuarters concurrency < 2 ^ 61 := by
    have divisorBound := twelve_le_threeQuarters concurrency
    have limitBound := limit.toNat_lt
    rw [Nat.div_lt_iff_lt_mul (threeQuarters_pos concurrency)]
    omega
  have bucketsBound : (limit.toNat / threeQuarters concurrency + 1).nextPowerOfTwo ≤ 2 ^ 61 :=
    nextPowerOfTwo_le quotientBound
  have shards : inWord (shardCount concurrency) = some (shardCount concurrency) :=
    inWord_of_lt (by omega)
  have shift : inWordSub 32 (shardCount concurrency).log2 =
      some (32 - (shardCount concurrency).log2) := by
    apply inWordSub_of_le
    rw [power, Nat.log2_two_pow]
    omega
  have tripled : inWord (shardCount concurrency * 3) = some (shardCount concurrency * 3) :=
    inWord_of_lt (by omega)
  have divisor : inWordDiv (shardCount concurrency * 3) 4 = some (threeQuarters concurrency) :=
    inWordDiv_of_pos _ (by decide)
  have quotient : inWordDiv limit.toNat (threeQuarters concurrency) =
      some (limit.toNat / threeQuarters concurrency) :=
    inWordDiv_of_pos _ (threeQuarters_pos concurrency)
  have wanted : inWord (limit.toNat / threeQuarters concurrency + 1) =
      some (limit.toNat / threeQuarters concurrency + 1) :=
    inWord_of_lt (by omega)
  have minimum : inWord (shardCount concurrency * minBuckets) =
      some (shardCount concurrency * minBuckets) :=
    inWord_of_lt (by rw [minBuckets]; omega)
  have buckets : inWord (limit.toNat / threeQuarters concurrency + 1).nextPowerOfTwo =
      some (limit.toNat / threeQuarters concurrency + 1).nextPowerOfTwo :=
    inWord_of_lt (by omega)
  simp only [inWords, shards, shift, tripled, divisor, quotient, wanted, minimum, buckets,
    Option.bind_eq_bind, Option.bind_some, Option.pure_def]
  exact (apply_ite some ..).symm

end Geometry

end Clock

namespace ClockCache

open Geometry

variable {κ ν : Type} {limit concurrency : Nat}

/-! ## Caches of a geometry -/

theorem ofLimit_of_lt (low : limit < 127 * threeQuarters concurrency) :
    (ofLimit limit concurrency : Except SizingError (ClockCache κ ν)) =
      .error (.capacityTooSmall limit (128 * Geometry.shardCount concurrency)) := by
  rw [ofLimit, Geometry.ofLimit_of_lt low]
  rfl

theorem ofLimit_of_huge (high : 127 * threeQuarters concurrency ≤ limit)
    (huge : 2 ^ 31 ≤ limit / threeQuarters concurrency) :
    (ofLimit limit concurrency : Except SizingError (ClockCache κ ν)) =
      .error (.bucketCount (forLimit limit concurrency).buckets) := by
  have tooMany : ¬ Table.isBucketCount (forLimit limit concurrency).buckets :=
    fun isCount => Nat.not_lt.2 huge ((isBucketCount_forLimit_iff limit concurrency).1 isCount)
  rw [ofLimit, Geometry.ofLimit_of_le high, ok_bind, Table.ofBuckets, if_neg tooMany]
  rfl

theorem exists_ofLimit_of_le (high : 127 * threeQuarters concurrency ≤ limit)
    (fits : limit / threeQuarters concurrency < 2 ^ 31) :
    ∃ fresh : ClockCache κ ν, ofLimit limit concurrency = .ok fresh ∧
      fresh.geometry = forLimit limit concurrency := by
  have isCount := (isBucketCount_forLimit_iff limit concurrency).2 fits
  rw [ofLimit, Geometry.ofLimit_of_le high, ok_bind, Table.ofBuckets, if_pos isCount]
  exact ⟨_, rfl, rfl⟩

theorem unbuilt_iff {geometry : Geometry}
    (divided : Geometry.ofLimit limit concurrency = .ok geometry) (cause : SizingError) :
    (ofLimit limit concurrency : Except SizingError (ClockCache κ ν)) = .error cause ↔
      2 ^ 31 ≤ limit / threeQuarters concurrency ∧ cause = .bucketCount geometry.buckets := by
  obtain ⟨high, rfl⟩ := of_ofLimit_eq_ok divided
  by_cases fits : limit / threeQuarters concurrency < 2 ^ 31
  · obtain ⟨fresh, built, _⟩ := exists_ofLimit_of_le (κ := κ) (ν := ν) high fits
    rw [built]
    exact ⟨nofun, fun huge => absurd fits (Nat.not_lt.2 huge.1)⟩
  · have huge := Nat.not_lt.1 fits
    rw [ofLimit_of_huge high huge, Except.error.injEq]
    exact ⟨fun same => ⟨huge, same.symm⟩, fun same => same.2.symm⟩

end ClockCache

namespace Clock.Geometry

/-! ## All limits -/

/-- What a limit and a concurrency divide a cache into, and when they do not. -/
structure Divides (limit concurrency : Nat) : Prop where
  inWords : inWords limit concurrency = some (ofLimit limit concurrency)
  shards : IsLeast {power : Nat | power.isPowerOfTwo ∧ min (max concurrency 16) 16384 ≤ power}
    (shardCount concurrency)
  spreads : ∀ buckets,
    Spreads ⟨shardCount concurrency, 32 - (shardCount concurrency).log2, buckets⟩
  refused : ∀ cause, ofLimit limit concurrency = .error cause ↔
    limit < 127 * (3 * shardCount concurrency / 4) ∧
      cause = .capacityTooSmall limit (128 * shardCount concurrency)
  divided : ∀ geometry, ofLimit limit concurrency = .ok geometry →
    geometry.shards = shardCount concurrency ∧
    geometry.shift = 32 - (shardCount concurrency).log2 ∧
    IsLeast {power : Nat | power.isPowerOfTwo ∧
      limit / (3 * shardCount concurrency / 4) < power} geometry.buckets ∧
    128 ≤ geometry.buckets ∧
    4 * limit < 3 * geometry.shards * geometry.buckets
  /-- A cache of this geometry is refused only for the number of its buckets. -/
  unbuilt : ∀ (κ ν : Type) (geometry : Geometry) (cause : SizingError),
    ofLimit limit concurrency = .ok geometry →
      ((ClockCache.ofLimit limit concurrency : Except SizingError (ClockCache κ ν)) =
          .error cause ↔
        2 ^ 31 ≤ limit / (3 * shardCount concurrency / 4) ∧
          cause = .bucketCount geometry.buckets)
  built : ∀ (κ ν : Type) (fresh : ClockCache κ ν),
    ClockCache.ofLimit limit concurrency = .ok fresh →
      ofLimit limit concurrency = .ok fresh.geometry

/-- Every limit and every concurrency of 64 bits are divided exactly: no step of it overflows,
and what is rounded is rounded as little as powers of two allow. -/
theorem divides (limit concurrency : UInt64) : Divides limit.toNat concurrency.toNat := by
  refine
    { inWords := inWords_eq limit concurrency.toNat
      shards := isLeast_nextPowerOfTwo _
      spreads := spreads_shardCount concurrency.toNat
      refused := ?refused
      divided := ?divided
      unbuilt := ?unbuilt
      built := ?built }
  case refused =>
      rw [← threeQuarters_eq]
      exact refused_iff limit.toNat concurrency.toNat
  case divided =>
      intro geometry divided
      obtain ⟨high, rfl⟩ := of_ofLimit_eq_ok divided
      rw [← threeQuarters_eq]
      exact ⟨rfl, rfl, isLeast_buckets .., minBuckets_le high, four_mul_limit_lt ..⟩
  case unbuilt =>
      intro κ ν geometry cause divided
      rw [← threeQuarters_eq]
      exact ClockCache.unbuilt_iff divided cause
  case built =>
      intro κ ν fresh built
      rw [ClockCache.ofLimit] at built
      obtain ⟨geometry, divided, rest⟩ := exists_of_bind_eq_ok built
      obtain ⟨shard, _, same⟩ := exists_of_bind_eq_ok rest
      cases same
      exact divided

-- The smallest limit for sixteen shards leaves each the fewest buckets; twelve entries more double
-- them.
example :
    ofLimit 1524 16 = .ok ⟨16, 28, 128⟩ ∧ ofLimit 1536 16 = .ok ⟨16, 28, 256⟩ := by
  decide +kernel

end Clock.Geometry

end BoundedCache
