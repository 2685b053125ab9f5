import ExtractionBench.Files.Tree
import ExtractionBench.Measurement.Stored
import ExtractionBench.Measurement.Table
/-!
# Loading results

A file whose name ends in `.csv` is a table of results, any other file holds one result in JSON.
What to do with a file that cannot be loaded is the caller's choice: give up, or leave it out and
say so.
-/

namespace ExtractionBench.Measurement

/-- What to do with a file that cannot be loaded. -/
inductive LoadPolicy where
  /-- The first one ends the loading. -/
  | strict
  /-- Each is left out with a warning. -/
  | lenient
  deriving DecidableEq, Repr

/-- How results are loaded. -/
structure LoadConfig where
  /-- What to do with a file that cannot be loaded. -/
  policy : LoadPolicy := .strict
  /-- Whether dag costs above the cap are kept as they are. -/
  noClamp : Bool := false
  deriving DecidableEq, Repr

/-- The ending of the names of tables. -/
def tableEnding : String := "csv"

/-- The results in one file, as they are stored. -/
def ofFile (tree : FileTree) (path : Path) : Except (Fault Double) (List (Measurement Double)) :=
  if path.extension? = some tableEnding then
    match tree.readText path with
    | .ok contents => ofTable contents path
    | .error problem => .error (.file path problem)
  else
    match tree.read path with
    | .error .isDirectory => .error (.json path ⟨.isDirectory, none⟩)
    | .error problem => .error (.file path problem)
    | .ok content =>
      match ofJson path content.data with
      | .error failure => .error (.json path failure)
      | .ok m =>
        match m.outOfRange? with
        | some (quantity, value) => .error (.outOfRange path m.name m.extractor quantity value)
        | none => .ok [m]

/-- The results in some files one after the other, as they are stored. -/
def ofFiles (tree : FileTree) (policy : LoadPolicy) :
    List Path → Outcome (List (Measurement Double))
  | [] => ⟨[], .ok []⟩
  | path :: rest =>
    match ofFile tree path with
    | .ok ms =>
      let others := ofFiles tree policy rest
      ⟨others.warnings, others.result.map (ms ++ ·)⟩
    | .error fault =>
      match policy with
      | .strict => ⟨[], .error fault⟩
      | .lenient =>
        let others := ofFiles tree policy rest
        ⟨.skipped path fault :: others.warnings, others.result⟩

/-- The results in some files. -/
def load (tree : FileTree) (paths : List Path) (config : LoadConfig) :
    Outcome (List (Measurement Double)) :=
  let stored := ofFiles tree config.policy paths
  ⟨stored.warnings, stored.result.map fun ms => if config.noClamp then ms else ms.map clamp⟩

end ExtractionBench.Measurement
