import BoundedCache.Counters
import Mathlib.Algebra.BigOperators.Group.Finset.Piecewise

/-!
# Counters add up

Counters form a commutative monoid, field by field, and counting an event adds a fixed summand. So
the counters of several shards are a sum, and an event in one shard adds its summand to the sum.
-/

namespace BoundedCache

/-! ## Counters of every cache -/

attribute [ext] Counters ClockCounters

namespace Counters

variable (left right : Counters)

@[simp] theorem add_requests : (left + right).requests = left.requests + right.requests := rfl

@[simp] theorem add_hits : (left + right).hits = left.hits + right.hits := rfl

@[simp] theorem add_insertions :
    (left + right).insertions = left.insertions + right.insertions := rfl

@[simp] theorem add_updates : (left + right).updates = left.updates + right.updates := rfl

@[simp] theorem add_removals : (left + right).removals = left.removals + right.removals := rfl

@[simp] theorem add_evictions : (left + right).evictions = left.evictions + right.evictions := rfl

instance : Zero Counters := ⟨{}⟩

theorem zero_eq : (0 : Counters) = {} := rfl

instance : AddCommMonoid Counters where
  add_assoc first second third := by ext <;> simp [Nat.add_assoc]
  zero_add counters := by ext <;> simp [zero_eq]
  add_zero counters := by ext <;> simp [zero_eq]
  add_comm first second := by ext <;> simp [Nat.add_comm]
  nsmul := nsmulRec

/-! ### Summands -/

section Summands

variable {α : Type}

/-- What a lookup with this answer adds. -/
def ofLookup (answer : Option α) : Counters where
  requests := 1
  hits := if answer.isSome then 1 else 0

/-- What a put adds that replaced this value. -/
def ofPut (previous : Option α) : Counters where
  insertions := if previous.isSome then 0 else 1
  updates := if previous.isSome then 1 else 0

/-- What a removal of this value adds. -/
def ofRemoval (removed : Option α) : Counters where
  removals := if removed.isSome then 1 else 0

/-- What a search for this victim adds. -/
def ofEviction (victim : Option α) : Counters where
  evictions := if victim.isSome then 1 else 0

end Summands

end Counters

/-! ## Counters of a clock table -/

namespace ClockCounters

variable (left right : ClockCounters)

@[simp] theorem add_core : (left + right).core = left.core + right.core := rfl

@[simp] theorem add_sweeps : (left + right).sweeps = left.sweeps + right.sweeps := rfl

@[simp] theorem add_scanned : (left + right).scanned = left.scanned + right.scanned := rfl

@[simp] theorem add_exhausted :
    (left + right).exhausted = left.exhausted + right.exhausted := rfl

instance : Zero ClockCounters := ⟨{}⟩

theorem zero_eq : (0 : ClockCounters) = {} := rfl

instance : AddCommMonoid ClockCounters where
  add_assoc first second third := by ext <;> simp [Nat.add_assoc]
  zero_add counters := by ext <;> simp [zero_eq]
  add_zero counters := by ext <;> simp [zero_eq]
  add_comm first second := by ext <;> simp [Nat.add_comm]
  nsmul := nsmulRec

end ClockCounters

/-! ## Sums over an indexed family -/

/-- Where one member of a family is replaced by one that measures more by some summand, the sum of
the measures grows by that summand. -/
theorem sum_update_add {α M : Type} [AddCommMonoid M] (measure : α → M) (family : Nat → α)
    {member : α} {index count : Nat} {summand : M} (inBounds : index < count)
    (grows : measure member = measure (family index) + summand) :
    ∑ other ∈ Finset.range count, measure (Function.update family index member other) =
      (∑ other ∈ Finset.range count, measure (family other)) + summand := by
  have inRange : index ∈ Finset.range count := Finset.mem_range.2 inBounds
  have updated : (fun other => measure (Function.update family index member other)) =
      Function.update (fun other => measure (family other)) index (measure member) :=
    Function.comp_update measure family index member
  rw [updated, Finset.sum_update_of_mem inRange, grows, add_right_comm,
    ← Finset.sum_eq_add_sum_sdiff_singleton_of_mem inRange fun other => measure (family other)]

end BoundedCache
