import ExtractionBench.Benchset.Layout
import ExtractionBench.Chart.Benchsets
import ExtractionBench.Chart.Improvement
import ExtractionBench.Chart.Runtimes
import ExtractionBench.Comparison.Text
import ExtractionBench.Measurement.Coverage
import ExtractionBench.Measurement.Grouping
import ExtractionBench.Report.Config
/-!
# Reports as documents

The text of a report and the chart that goes with it, made from results alone.
-/

namespace ExtractionBench.Report

/-- A chart and the name of its file. -/
structure Figure where
  /-- The name of the file. -/
  name : String
  /-- The chart. -/
  plot : Plot Double

/-- A text and perhaps a chart. -/
structure Document where
  /-- The text. -/
  text : String
  /-- The chart. -/
  figure : Option Figure

/-- A text without a chart. -/
def Document.plain (text : String) : Document := ⟨text, none⟩

/-! ## Comparisons -/

/-- What the line of a differing cost starts with. -/
def mismatchMark : String := "warning: "

/-- One comparison. -/
def comparisonText (s : Comparison.Summary Double) : String :=
  "###################################################\n"
    ++ s.first ++ " vs " ++ s.second ++ "\n\n"
    ++ String.join (s.mismatches.map fun m => mismatchMark ++ m.text ++ "\n")
    ++ s.text ++ "\n\n"

/-- Every comparison. -/
def comparisonsText (config : Config) (ms : List (Measurement Double)) :
    Except (Fault Double) String :=
  (Comparison.summarizeAll config.ratio ms).map fun ss => String.join (ss.map comparisonText)

/-- The heading of a directory. -/
def directoryHeading (directory : Path) : String :=
  "=================== " ++ directory.text ++ " ===================\n"

/-- What is said of a directory with fewer than two extractors. -/
def nothingToCompare : String := "only one extractor, nothing to compare\n\n"

/-- The comparisons in one directory. -/
def directoryText (config : Config) (group : Path × List (Measurement Double)) :
    Except (Fault Double) String :=
  if (Measurement.extractors group.2).length < 2 then
    .ok (directoryHeading group.1 ++ nothingToCompare)
  else (comparisonsText config group.2).map (directoryHeading group.1 ++ ·)

/-- The comparisons in every directory. -/
def directoriesText (config : Config) (ms : List (Measurement Double)) :
    Except (Fault Double) String :=
  ((Measurement.byDirectory ms).mapM (directoryText config)).map String.join

/-! ## Improvement over time -/

/-- The end of a curve in words. -/
def curveLine (c : FairShare.Curve Double) : String :=
  match c.points.getLast? with
  | some last =>
    c.extractor ++ ": " ++ Decimal.fixed 2 last.saving ++ "% after " ++ toString last.seconds ++
      "s ("
      ++ toString last.finished ++ " finished)\n"
  | none => ""

/-- The improvement over time. -/
def timeBudget (config : Config) (ms : List (Measurement Double)) :
    Except (Fault Double) Document :=
  (FairShare.curves ms config.reference config.excluded).map fun curves =>
    if curves.isEmpty then
      .plain ("no time budget graph: nothing to compare against " ++ config.reference ++ "\n")
    else
      ⟨"dag cost improvement over " ++ config.reference ++ "\n" ++
        String.join (curves.map curveLine), some ⟨"dag_cost_improvement.svg", .improvement curves⟩⟩

/-! ## Runtimes -/

/-- The runtimes of one extractor in words. -/
def runtimeLine (config : Config) (series : String × List Double) : Except (Fault Double) String :=
  do
  let times := series.2
  let mean ← Statistics.mean times
  let spread ← Statistics.stdDev times
  let five ← Statistics.FiveNumber.of config.ratio.quantileMethod times
  let seconds (label : String) (x : Double) : String := label ++ "=" ++ Decimal.fixed 4 x ++ "s"
  return series.1 ++ ": " ++ toString times.length ++ " runs, "
    ++ ", ".intercalate [seconds "mean" mean, seconds "std" spread, seconds "median" five.median,
      seconds "max" (times.getLast?.getD .zero)] ++ "\n"

/-- The runtimes of every extractor. -/
def runtimes (config : Config) (ms : List (Measurement Double)) : Except (Fault Double) Document :=
  let series := Benchset.runtimes ms (Measurement.extractors ms)
  (series.mapM (runtimeLine config)).map fun lines =>
    ⟨String.join lines, some ⟨"extractor_times.svg", .runtimes series⟩⟩

/-! ## Suites -/

/-- The extractors other than the reference. -/
def candidates (config : Config) (ms : List (Measurement Double)) : List String :=
  (Measurement.extractors ms).filter (· != config.reference)

/-- The dag costs of each suite relative to the reference. -/
def suiteRatios (config : Config) (ms : List (Measurement Double)) : Benchset.Grid Double :=
  Benchset.dagRatios ms config.reference (candidates config ms)

/-- The counts and the dag costs of each suite. -/
def benchsets (config : Config) (ms : List (Measurement Double)) : Document :=
  let counts := "results per benchset\n" ++ Benchset.layoutCounts (Benchset.counts ms) ++ "\n"
  let ratios := suiteRatios config ms
  if ratios.isEmpty then .plain counts
  else
    ⟨counts ++ "dag cost vs " ++ config.reference ++ " (lower is better)\n" ++
      Benchset.layoutRatios ratios ++ "\n",
      some ⟨"benchset_dag_cost.svg", .benchsets ratios config.reference⟩⟩

/-! ## The whole -/

/-- The line that every report starts with. -/
def loadedLine (ms : List (Measurement Double)) : String :=
  "Loaded " ++ toString ms.length ++ " results.\n"

/-- What a report has below its first line. -/
def body (config : Config) (ms : List (Measurement Double)) : Except (Fault Double) Document :=
  match config.mode with
  | .ratioSummary => (comparisonsText config ms).map .plain
  | .perDirectory => (directoriesText config ms).map .plain
  | .timeBudget => timeBudget config ms
  | .runtimes => runtimes config ms
  | .benchsets => .ok (benchsets config ms)

/-- The warnings of a kind of report. -/
def modeWarnings (config : Config) (ms : List (Measurement Double)) : List Warning :=
  match config.mode with
  | .timeBudget => FairShare.curveWarnings ms config.reference
  | .benchsets => Benchset.ratioWarnings (suiteRatios config ms) config.reference
  | _ => []

/-- The warnings of a report. -/
def warnings (config : Config) (ms : List (Measurement Double)) : List Warning :=
  (if config.checkCoverage then Measurement.coverageWarnings ms else []) ++ modeWarnings config ms

/-- The report on some results. -/
def document (config : Config) (ms : List (Measurement Double)) : Outcome Document :=
  let ms := config.select ms
  { warnings := warnings config ms
    result := (body config ms).map fun d => { d with text := loadedLine ms ++ d.text } }

end ExtractionBench.Report
