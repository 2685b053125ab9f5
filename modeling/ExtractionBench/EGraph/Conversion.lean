import ExtractionBench.EGraph.Json
import ExtractionBench.EGraph.Legacy
import ExtractionBench.Files.Tree
import ExtractionBench.Json.Printer
import ExtractionBench.Text.Replace
/-!
# Converting e-graph files

A file in the older format is converted to JSON, which is written beside it under a name made from
its own.
-/

namespace ExtractionBench.EGraph

/-- The text that is written for an e-graph. -/
def jsonText (g : EGraph) : String := g.toJson.pretty

/-- Where the JSON for a file is written: its path without any `.csv`, with `.json` at the end, and
with `.json` for every `.json.json`. -/
def outputPath (input : Path) : Path :=
  let stripped := Text.replaceAll ".csv".toList [] input.text.toList
  ⟨String.ofList (Text.replaceAll ".json.json".toList ".json".toList (stripped ++ ".json".toList))⟩

/-- Converts a file. Where the JSON was written comes with the files after it. -/
def convertFile (tree : FileTree) (input : Path) : Except (Fault Double) (Path × FileTree) := do
  let contents ← (tree.readText input).mapError (.file input ·)
  let g ← ofLegacy contents input
  let output := outputPath input
  let after ← (tree.write output (.ofText g.jsonText)).mapError (.file output ·)
  return (output, after)

end ExtractionBench.EGraph
