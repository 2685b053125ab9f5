import ExtractionBench.Fault
import ExtractionBench.Numeric.Scalar
/-!
# Means and spread

Arithmetic and geometric mean, and the standard deviation of a population.
-/

namespace ExtractionBench.Statistics

variable {α : Type} [Scalar α]

/-- The arithmetic mean. -/
def mean (xs : List α) : Except (Fault α) α :=
  if xs.isEmpty then .error (.noData .mean) else .ok (Scalar.sum xs / (xs.length : α))

variable [Elementary α]

/-- The standard deviation of a population: the root of the mean square of the distances from the
mean. -/
def stdDev (xs : List α) : Except (Fault α) α := do
  let m ← mean xs
  let squares := xs.map fun x => (x - m) * (x - m)
  return Elementary.sqrt (Scalar.sum squares / (xs.length : α))

/-- A number can enter a geometric mean: it is finite and above zero. -/
def isPositive (x : α) : Bool := Scalar.isFinite x && decide (((0 : Nat) : α) < x)

/-- The geometric mean of positive numbers, by the mean of their logarithms. -/
def geometricMean (xs : List α) : Except (Fault α) α :=
  if xs.isEmpty then .error (.noData .geometricMean)
  else
    match xs.find? (!isPositive ·) with
    | some bad => .error (.nonPositive bad)
    | none => .ok (Elementary.exp (Scalar.sum (xs.map Elementary.ln) / (xs.length : α)))

end ExtractionBench.Statistics
