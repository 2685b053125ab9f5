import ExtractionBench.Comparison.Basic
import ExtractionBench.Measurement.Loading
/-!
# What a report is asked for

The results to look at, the kind of report, and where charts go.
-/

namespace ExtractionBench.Report

/-- The kinds of reports. -/
inductive Mode where
  /-- Every pair of extractors over all results. -/
  | ratioSummary
  /-- Every pair of extractors, for each directory of results by itself. -/
  | perDirectory
  /-- Improvement over a reference under a fair share of time. -/
  | timeBudget
  /-- The runtimes of each extractor. -/
  | runtimes
  /-- Counts and dag costs by suite. -/
  | benchsets
  deriving DecidableEq, Repr

/-- The extractors that are left out of the improvement over time when none are named. -/
def defaultBaselines : List String := ["bottom-up"]

/-- The reference when none is named. -/
def defaultReference : String := "faster-ilp-cbc-timeout"

/-- A request for a report. -/
structure Config where
  /-- The files with the results; every result below the results directory if there are none. -/
  files : List Path := []
  /-- The kind of report. -/
  mode : Mode := .ratioSummary
  /-- The extractor that improvements and suites are measured against. -/
  reference : String := defaultReference
  /-- The extractors that are left out of the improvement over time. -/
  baselines : List String := []
  /-- The extractors to look at; all of them if there are none. -/
  only : List String := []
  /-- Whether it is told which extractors lack benchmarks. -/
  checkCoverage : Bool := false
  /-- The directory that charts are written to. -/
  outDir : Path := ⟨"."⟩
  /-- Whether charts are left out. -/
  noCharts : Bool := false
  /-- How results are loaded. -/
  load : Measurement.LoadConfig := {}
  /-- How extractors are compared. -/
  ratio : Comparison.RatioConfig := {}
  deriving DecidableEq, Repr

/-- The extractors that are left out of the improvement over time. -/
def Config.excluded (config : Config) : List String :=
  if config.baselines.isEmpty then defaultBaselines else config.baselines

/-- The results to look at. -/
def Config.select {α : Type} (config : Config) (ms : List (Measurement α)) : List (Measurement α) :=
  if config.only.isEmpty then ms else ms.filter fun m => config.only.contains m.extractor

end ExtractionBench.Report
