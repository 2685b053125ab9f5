import ExtractionBench.Measurement.Index
/-!
# Tables by benchmark suite

Runtimes of each extractor, and for each suite and extractor the number of results and the dag cost
relative to a baseline. A result whose name has no suite counts under `(none)`.
-/

namespace ExtractionBench.Benchset

/-- Rows by suite, each with a value for some extractors; both in ascending order. -/
abbrev Grid (β : Type) := List (String × List (String × β))

variable {α β : Type}

/-- The suite of results that have none in their name. -/
def unnamed : String := "(none)"

/-- The suite that a result counts under. -/
def suiteOf (m : Measurement α) : String := m.benchset?.getD unnamed

/-- The table with the value for a suite and an extractor changed. -/
def alter (suite extractor : String) (value : Option β → β) (grid : Grid β) : Grid β :=
  Ascending.upsert Ascending.nameBefore suite
    (fun row => Ascending.upsert Ascending.nameBefore extractor value (row.getD [])) grid

/-- The value for a suite and an extractor. -/
def cell? (suite extractor : String) (grid : Grid β) : Option β :=
  (Ascending.find? Ascending.nameBefore suite grid).bind
    (Ascending.find? Ascending.nameBefore extractor)

/-- The numbers of results. -/
def counts (ms : List (Measurement α)) : Grid Nat :=
  ms.foldl (fun grid m => alter (suiteOf m) m.extractor (fun count => count.getD 0 + 1) grid) []

variable [Scalar α]

/-- The sums of dag costs, each added up in the order of the results. -/
def dagSums (ms : List (Measurement α)) : Grid α :=
  ms.foldl (fun grid m =>
    alter (suiteOf m) m.extractor (fun sum => sum.getD ((0 : Nat) : α) + m.dag) grid) []

/-- The dag costs of some extractors relative to a baseline: the quotient of the sums of each suite.
Suites for which the baseline has no results, or a sum of zero, are left out. -/
def dagRatios (ms : List (Measurement α)) (baseline : String) (extractors : List String) : Grid α :=
  let sums := dagSums ms
  sums.filterMap fun (suite, row) =>
    match Ascending.find? Ascending.nameBefore baseline row with
    | none => none
    | some base =>
      if base == ((0 : Nat) : α) then none
      else
        match row.filter fun (extractor, _) => extractors.contains extractor with
        | [] => none
        | kept => some (suite, kept.map fun (extractor, sum) => (extractor, sum / base))

/-- The runtimes of some extractors in seconds, each in ascending order; the extractors keep their
order. -/
def runtimes (ms : List (Measurement α)) (extractors : List String) : List (String × List α) :=
  extractors.map fun e =>
    (e, Scalar.sorted
      ((Measurement.ofExtractor e ms).map fun m => m.micros / Measurement.microsPerSecond))

/-- The warning that goes with ratios: there is nothing to take them against. -/
def ratioWarnings (ratios : Grid α) (baseline : String) : List Warning :=
  if ratios.isEmpty then [.noReferenceForRatios baseline] else []

end ExtractionBench.Benchset
