import BoundedCache.Outline

/-!
# Sizes and their refusal

A cache is refused only when it is built, and only for its size. Every cause carries the numbers
its text needs.
-/

namespace BoundedCache

/-- The number of entries a bounded list may hold, never zero. -/
structure Capacity where
  val : Nat
  pos : 0 < val

/-- A capacity of the given size, unless that is zero. -/
def Capacity.ofNat? (size : Nat) : Option Capacity :=
  if positive : 0 < size then some ⟨size, positive⟩ else none

/-- Why a size was refused. -/
inductive SizingError where
  /-- The limit on the number of entries is too low. -/
  | capacityTooSmall (requested minimum : Nat)
  /-- A table cannot have this number of buckets. -/
  | bucketCount (size : Nat)
deriving DecidableEq

namespace SizingError

def message : SizingError → String
  | capacityTooSmall requested minimum =>
      "the parameter 'max_size' is too small: requested " ++ toString requested ++
        ", must be greater than " ++ toString minimum
  | bucketCount size =>
      "invalid segment entry size " ++ toString size ++ ": must be a non-zero power of two"

def outline : SizingError → Outline
  | capacityTooSmall requested minimum =>
      .record "CapacityTooSmall"
        [("requested", .ofNat requested), ("minimum", .ofNat minimum)]
  | bucketCount size => .tuple "InvalidEntrySize" [.ofNat size]

end SizingError

end BoundedCache
