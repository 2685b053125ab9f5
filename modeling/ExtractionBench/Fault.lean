import ExtractionBench.Decimal.Notation
import ExtractionBench.Files.Path
import ExtractionBench.Files.Problem
import ExtractionBench.Json.Problem
import ExtractionBench.Text.Quoted
/-!
# Faults

Everything that can go wrong while results are loaded, converted or summarized. Each fault carries
what is needed to act on its message alone: the file, the benchmark, the extractor.
-/

namespace ExtractionBench

/-- The two costs of an extraction. -/
inductive CostKind where
  /-- The cost of the extracted term as a tree. -/
  | tree
  /-- The cost of the extracted term as a graph with sharing. -/
  | dag
  deriving DecidableEq, Repr

/-- The name of a cost. -/
def CostKind.label : CostKind → String
  | .tree => "tree"
  | .dag => "dag"

/-- What is measured of an extraction. -/
inductive Quantity where
  /-- One of its costs. -/
  | cost (kind : CostKind)
  /-- Its runtime. -/
  | time
  deriving DecidableEq, Repr

/-- The name of a quantity. -/
def Quantity.label : Quantity → String
  | .cost kind => kind.label ++ " cost"
  | .time => "time"

/-- What is wrong with a line of a table. -/
inductive LineDefect (α : Type) where
  /-- A row of results has another number of columns than five. -/
  | columnCount (found : Nat)
  /-- A column of a row of results is not a number. -/
  | notNumber (quantity : Quantity) (text : String)
  /-- A number of a row of results cannot be measured against. -/
  | outOfRange (quantity : Quantity) (value : α)
  /-- A node has fewer columns than three. -/
  | tooFewColumns (line : String)
  /-- The cost of a node is not a number. -/
  | badCost (text : String)
  deriving DecidableEq, Repr

/-- What there is no data for. -/
inductive Shortage where
  /-- A geometric mean of no numbers. -/
  | geometricMean
  /-- A mean of no numbers. -/
  | mean
  /-- Quantiles into no groups. -/
  | groups
  /-- Quantiles of no numbers. -/
  | quantiles
  /-- A comparison of two extractors without results. -/
  | comparison (first second : String)
  deriving DecidableEq, Repr

/-- The wording of a shortage. -/
def Shortage.describe : Shortage → String
  | .geometricMean => "geometric mean of an empty list"
  | .mean => "mean of an empty list"
  | .groups => "quantiles into zero groups"
  | .quantiles => "quantiles of an empty list"
  | .comparison first second => "no benchmarks for " ++ first ++ " or " ++ second

/-- What went wrong. -/
inductive Fault (α : Type) where
  /-- A file could not be read or written. -/
  | file (path : Path) (problem : FileProblem)
  /-- A file is not the JSON text that it should be. -/
  | json (path : Path) (failure : Json.Failure)
  /-- A line of a table is malformed. -/
  | line (path : Path) (number : Nat) (defect : LineDefect α)
  /-- An extractor has two results for one benchmark. -/
  | repeated (benchmark extractor : String) (first second : Path)
  /-- An extractor has no result for a benchmark that another one has a result for. -/
  | missing (benchmark extractor other : String)
  /-- A cost is not positive, so there is no ratio. -/
  | zeroCost (benchmark extractor : String) (kind : CostKind)
  /-- A result cannot be measured against. -/
  | outOfRange (path : Path) (benchmark extractor : String) (quantity : Quantity) (value : α)
  /-- There are no numbers to summarize. -/
  | noData (shortage : Shortage)
  /-- A geometric mean of a number that is not positive. -/
  | nonPositive (value : α)
  /-- A chart could not be written. -/
  | chart (path : Path) (problem : FileProblem)
  deriving DecidableEq, Repr

/-- The wording of a defect. -/
def LineDefect.describe : LineDefect Double → String
  | .columnCount found => "expected 5 columns, found " ++ toString found
  | .notNumber quantity text => quantity.label ++ " is not a number: " ++ Text.quoted text
  | .outOfRange quantity value =>
    quantity.label ++ " is out of range: " ++ Decimal.plain.write value
  | .tooFewColumns line => "expected `eclass,cost,op,children...`, got " ++ Text.quoted line
  | .badCost text => "cost is not a number: " ++ Text.quoted text

/-- The message of a fault. -/
def Fault.message : Fault Double → String
  | .file path problem => "could not read " ++ Text.quoted path.text ++ ": " ++ problem.describe
  | .json path failure =>
    "could not parse json in " ++ Text.quoted path.text ++ ": " ++ failure.message
  | .line path number defect =>
    Text.quoted path.text ++ " line " ++ toString number ++ ": " ++ defect.describe
  | .repeated benchmark extractor first second =>
    "duplicate result for benchmark " ++ benchmark ++ " under extractor " ++ extractor ++ ": "
      ++ Text.quoted first.text ++ " and " ++ Text.quoted second.text
  | .missing benchmark extractor other =>
    "benchmark " ++ benchmark ++ " has a result for " ++ other ++ " but none for " ++ extractor
  | .zeroCost benchmark extractor kind =>
    "benchmark " ++ benchmark ++ " has a non-positive " ++ kind.label ++ " cost under " ++ extractor
      ++ ", cannot take a ratio"
  | .outOfRange path benchmark extractor quantity value =>
    Text.quoted path.text ++ ": benchmark " ++ benchmark ++ " under " ++ extractor ++
      " has an out of range "
      ++ quantity.label ++ ": " ++ Decimal.plain.write value
  | .noData shortage => "no data: " ++ shortage.describe
  | .nonPositive value => "geometric mean needs positive values, got " ++ Decimal.plain.write value
  | .chart path problem =>
    "could not render chart " ++ Text.quoted path.text ++ ": backend error: Drawing backend error: "
      ++ problem.describe

/-- Something worth telling that does not stop the work. -/
inductive Warning where
  /-- A file was left out. -/
  | skipped (path : Path) (fault : Fault Double)
  /-- An extractor has no result for some benchmarks that others have results for. -/
  | gap (extractor : String) (count : Nat) (first : String)
  /-- There are no results to measure an improvement against. -/
  | noReferenceForCurves (reference : String)
  /-- There are no results to take ratios against. -/
  | noReferenceForRatios (reference : String)
  deriving DecidableEq, Repr

/-- The text of a warning. -/
def Warning.message : Warning → String
  | .skipped path fault => "skipping " ++ Text.quoted path.text ++ ": " ++ fault.message
  | .gap extractor count first =>
    extractor ++ " has no result for " ++ toString count ++ " benchmarks, first: " ++ first
  | .noReferenceForCurves reference =>
    "no results for reference extractor " ++ reference ++ ", skipping the time budget graph"
  | .noReferenceForRatios reference =>
    "no results for reference extractor " ++ reference ++ ", skipping dag cost ratios"

/-- The answer of an operation that may warn before it succeeds or fails. -/
structure Outcome (α : Type) where
  /-- The warnings, in order. -/
  warnings : List Warning
  /-- How it ended. -/
  result : Except (Fault Double) α

end ExtractionBench
