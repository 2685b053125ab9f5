import ExtractionBench.Chart.Plot
/-!
# The chart of runtimes

The runtimes of each extractor in ascending order, on a logarithmic scale.
-/

namespace ExtractionBench.Plot

variable {α : Type} [Scalar α]

/-- All runtimes. -/
def allTimes (series : List (String × List α)) : List α := series.flatMap (·.2)

/-- Where the vertical axis starts: the least runtime above zero, a microsecond at most. A runtime
of zero has no place on a logarithmic axis and is drawn here. -/
def timeFloor (series : List (String × List α)) : α :=
  ((allTimes series).filter fun t => decide (((0 : Nat) : α) < t)).foldl Scalar.least
    (Scalar.quotient 1 1000000)

/-- Where the vertical axis ends: half as much again as the greatest runtime. -/
def timeCeiling (series : List (String × List α)) : α :=
  (allTimes series).foldl Scalar.greatest (timeFloor series) * Scalar.quotient 3 2

/-- The greatest number of runs of an extractor, one at least. -/
def mostRuns (series : List (String × List α)) : Nat := (series.map (·.2.length)).foldl max 1

/-- The chart of some runtimes in seconds. -/
def runtimes (series : List (String × List α)) : Plot α where
  caption := "Extractor Time Comparison"
  xTitle := some "Run"
  yTitle := some "Time (seconds)"
  x := ⟨((0 : Nat) : α), (mostRuns series : α)⟩
  y := ⟨timeFloor series, timeCeiling series⟩
  yScale := .logarithmic
  footer := 45
  series := series.map fun (extractor, times) =>
    ⟨extractor,
      .line (times.zipIdx.map fun (t, i) => ((i : α), Scalar.greatest t (timeFloor series)))⟩
  rules := []
  labels := []

end ExtractionBench.Plot
