/-!
# Reported numbers

A report lists named numbers in the order of their names. A number is a count or a share of one
count in another, and is handed out as a floating-point value.
-/

namespace BoundedCache

/-- A reported number. -/
inductive Metric where
  | count (value : Nat)
  | share (part whole : Nat)
deriving DecidableEq

/-- The number as a floating-point value; both counts of a share are converted before they are
divided. A share of nothing is zero. -/
def Metric.toFloat : Metric → Float
  | count value => Float.ofNat value
  | share part whole => if whole = 0 then 0 else Float.ofNat part / Float.ofNat whole

/-- Named numbers. -/
abbrev Report := List (String × Metric)

/-- The same numbers in the order of their names. -/
def Report.sorted (report : Report) : Report :=
  report.mergeSort fun left right => decide (left.1 ≤ right.1)

end BoundedCache
