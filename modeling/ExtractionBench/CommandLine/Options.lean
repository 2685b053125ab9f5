import ExtractionBench.CommandLine.Words
import ExtractionBench.Report.Config
/-!
# The options of the programs

The requests that command lines amount to.
-/

namespace ExtractionBench.CommandLine

open Comparison Measurement Report Statistics

/-- The words for what to do with a file that cannot be loaded. -/
def policies : List (String × LoadPolicy) := [("strict", .strict), ("lenient", .lenient)]

/-- The words for whether tree cost differences are reported. -/
def treeCostPolicies : List (String × TreeCostPolicy) :=
  [("must-match", .mustMatch), ("may-differ", .mayDiffer)]

/-- The words for how quartiles are interpolated. -/
def quantileMethods : List (String × QuantileMethod) :=
  [("exclusive", .exclusive), ("inclusive", .inclusive)]

/-- The words for the kinds of reports. -/
def modes : List (String × Mode) :=
  [("ratio-summary", .ratioSummary), ("per-directory", .perDirectory), ("time-budget", .timeBudget),
   ("runtimes", .runtimes), ("benchsets", .benchsets)]

/-- An option whose values are words of a list. -/
def choice {β : Type} (name : String) (words : List (String × β)) : Opt :=
  ⟨name, .choice (words.map (·.1))⟩

/-- What an option was set to, by the words of a list. -/
def chosen {β : Type} (name : String) (words : List (String × β)) (standard : β)
    (uses : List Use) : β :=
  ((valuesOf name uses).head?.bind fun word => words.lookup word).getD standard

/-- The options about loading. -/
def loadOptions : List Opt := [choice "policy" policies, ⟨"no-clamp", .flag⟩]

/-- The options about comparing. -/
def ratioOptions : List Opt :=
  [choice "tree-costs" treeCostPolicies, choice "quantile-method" quantileMethods]

/-- The options of a report. -/
def reportOptions : List Opt :=
  [choice "mode" modes, ⟨"reference", .text⟩, ⟨"baseline", .texts⟩, ⟨"extractor", .texts⟩,
    ⟨"check-coverage", .flag⟩,
   ⟨"out-dir", .text⟩, ⟨"no-charts", .flag⟩] ++ loadOptions ++ ratioOptions

/-- How to load, by the options that were given. -/
def loadOf (uses : List Use) : LoadConfig where
  policy := chosen "policy" policies .strict uses
  noClamp := given "no-clamp" uses

/-- How to compare, by the options that were given. -/
def ratioOf (uses : List Use) : RatioConfig where
  treeCosts := chosen "tree-costs" treeCostPolicies .mustMatch uses
  quantileMethod := chosen "quantile-method" quantileMethods .exclusive uses

/-- The request for a report, by the options and files that were given. -/
def reportOf (ws : Words) : Report.Config where
  files := ws.files.map Path.mk
  mode := chosen "mode" modes .ratioSummary ws.uses
  reference := (valuesOf "reference" ws.uses).head?.getD defaultReference
  baselines := valuesOf "baseline" ws.uses
  only := valuesOf "extractor" ws.uses
  checkCoverage := given "check-coverage" ws.uses
  outDir := ⟨(valuesOf "out-dir" ws.uses).head?.getD "."⟩
  noCharts := given "no-charts" ws.uses
  load := loadOf ws.uses
  ratio := ratioOf ws.uses

/-- Reads how to load. -/
def readLoad (words : List String) : Except UsageProblem LoadConfig :=
  (Grammar.read ⟨loadOptions, false⟩ words).map (loadOf ·.uses)

/-- Reads how to compare. -/
def readRatio (words : List String) : Except UsageProblem RatioConfig :=
  (Grammar.read ⟨ratioOptions, false⟩ words).map (ratioOf ·.uses)

/-- Reads a request for a report. -/
def readReport (words : List String) : Except UsageProblem Report.Config :=
  (Grammar.read ⟨reportOptions, true⟩ words).map reportOf

/-- Reads the files to convert, of which there is one at least. -/
def readConvert (words : List String) : Except UsageProblem (List Path) := do
  let ws ← Grammar.read ⟨[], true⟩ words
  if ws.files.isEmpty then throw .missingFile
  return ws.files.map Path.mk

end ExtractionBench.CommandLine
