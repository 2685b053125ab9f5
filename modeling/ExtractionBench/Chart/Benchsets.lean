import ExtractionBench.Benchset.Layout
import ExtractionBench.Chart.Plot
/-!
# The chart of dag costs by suite

Bars of the dag cost relative to a baseline, grouped by suite, with a line where extractor and
baseline are even.
-/

namespace ExtractionBench.Plot

open Benchset

variable {α : Type} [Scalar α]

/-- The number of groups that the horizontal axis has room for, one at least. -/
def groups (grid : Grid α) : α := ((max grid.length 1 : Nat) : α)

/-- Where the vertical axis ends: a tenth above the greatest ratio, or above one. -/
def ratioCeiling (grid : Grid α) : α :=
  (grid.flatMap fun row => row.2.map (·.2)).foldl Scalar.greatest ((1 : Nat) : α) * Scalar.quotient
    11 10

/-- Where the names of the suites stand, below the base line. -/
def labelHeight (grid : Grid α) : α := -(Scalar.quotient 5 100) * ratioCeiling grid

/-- The width of a bar: the bars of a group take eight tenths of its room. -/
def barWidth (grid : Grid α) : α := Scalar.quotient 8 10 / ((max (columns grid).length 1 : Nat) : α)

/-- The bar of the `k`-th extractor in the `b`-th group. -/
def boxAt (grid : Grid α) (b k : Nat) (ratio : α) : Box α :=
  let left := (b : α) + Scalar.quotient 1 10 + (k : α) * barWidth grid
  ⟨left, left + barWidth grid, ((0 : Nat) : α), ratio⟩

/-- The bars of the `k`-th extractor, one in each group that has a ratio for it. -/
def boxesOf (grid : Grid α) (extractor : String) (k : Nat) : List (Box α) :=
  grid.zipIdx.filterMap fun ((_, row), b) =>
    (Ascending.find? Ascending.nameBefore extractor row).map (boxAt grid b k)

/-- The chart of a table of ratios. -/
def benchsets (grid : Grid α) (baseline : String) : Plot α where
  caption := "DAG cost vs " ++ baseline ++ " (lower is better)"
  xTitle := none
  yTitle := some ("DAG cost vs " ++ baseline)
  x := ⟨((0 : Nat) : α), groups grid⟩
  y := ⟨((2 : Nat) : α) * labelHeight grid, ratioCeiling grid⟩
  yScale := .linear
  footer := 20
  series := (columns grid).zipIdx.map fun (e, k) => ⟨e, .bars (boxesOf grid e k)⟩
  rules := [[(((0 : Nat) : α), ((1 : Nat) : α)), (groups grid, ((1 : Nat) : α))]]
  labels :=
    grid.zipIdx.map fun ((suite, _), b) => (suite, (b : α) + Scalar.quotient 4 10, labelHeight grid)

end ExtractionBench.Plot
