import ExtractionBench.Report.Document
/-!
# Producing reports

A report is made from the results that a request points at. Writing its chart is the last step and
the only one that changes a file.
-/

namespace ExtractionBench.Report

/-- The path of a figure. -/
def Figure.path (figure : Figure) (config : Config) : Path := config.outDir.join ⟨figure.name⟩

/-- Writes the chart of a document, if it has one and charts are asked for; the text then ends by
saying where. -/
def publish (config : Config) (tree : FileTree) (d : Document) :
    Except (Fault Double) (String × FileTree) :=
  match d.figure with
  | none => .ok (d.text, tree)
  | some figure =>
    if config.noCharts then .ok (d.text, tree)
    else
      let path := figure.path config
      match tree.write path (.drawing figure.plot.draw) with
      | .ok after => .ok (d.text ++ "Wrote " ++ path.text ++ "\n", after)
      | .error problem => .error (.chart path problem)

/-- The report on some results, with the files after it. -/
def report (config : Config) (tree : FileTree) (ms : List (Measurement Double)) :
    Outcome (String × FileTree) :=
  let made := document config ms
  ⟨made.warnings, made.result.bind (publish config tree)⟩

/-- The files that a request points at. -/
def inputs (config : Config) (tree : FileTree) : List Path :=
  if config.files.isEmpty then tree.defaultInputs else config.files

/-- Loads the results that a request points at, and reports on them. -/
def run (config : Config) (tree : FileTree) : Outcome (String × FileTree) :=
  let loaded := Measurement.load tree (inputs config tree) config.load
  match loaded.result with
  | .ok ms =>
    let made := report config tree ms
    ⟨loaded.warnings ++ made.warnings, made.result⟩
  | .error fault => ⟨loaded.warnings, .error fault⟩

end ExtractionBench.Report
