import ExtractionBench.Chart.Plot
import ExtractionBench.FairShare.Curve
/-!
# The chart of improvements over time

Elapsed seconds against the improvement of the dag cost in percent, a line for each extractor.
-/

namespace ExtractionBench.Plot

open FairShare

variable {α : Type} [Scalar α]

/-- The last second that is shown, one at least. -/
def lastSecond (curves : List (Curve α)) : Nat :=
  (curves.filterMap fun c => c.points.getLast?.map (·.seconds)).foldl max 1

/-- All savings. -/
def savings (curves : List (Curve α)) : List α := curves.flatMap fun c => c.points.map (·.saving)

/-- The least saving, zero at most. -/
def leastSaving (curves : List (Curve α)) : α := (savings curves).foldl Scalar.least ((0 : Nat) : α)

/-- The greatest saving, zero at least. -/
def greatestSaving (curves : List (Curve α)) : α :=
  (savings curves).foldl Scalar.greatest ((0 : Nat) : α)

/-- The room above and below the savings: a twentieth of their extent, half a percent at least. -/
def savingPad (curves : List (Curve α)) : α :=
  Scalar.greatest ((greatestSaving curves - leastSaving curves) * Scalar.quotient 5 100)
    (Scalar.quotient 1 2)

/-- The chart of some curves. -/
def improvement (curves : List (Curve α)) : Plot α where
  caption := "DAG cost improvement over time"
  xTitle := some "Elapsed time (s)"
  yTitle := some "Improvement in dag cost (%)"
  x := ⟨((0 : Nat) : α), (lastSecond curves : α)⟩
  y := ⟨leastSaving curves - savingPad curves, greatestSaving curves + savingPad curves⟩
  yScale := .linear
  footer := 45
  series :=
    curves.map fun c => ⟨c.extractor, .line (c.points.map fun p => ((p.seconds : α), p.saving))⟩
  rules := []
  labels := []

end ExtractionBench.Plot
