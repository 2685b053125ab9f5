import ExtractionBench.CommandLine.Options
import ExtractionBench.EGraph.Conversion
import ExtractionBench.Report.Run
/-!
# The programs

What each program prints, which status it ends with and what it does to the files, for its command
line.
-/

namespace ExtractionBench.CommandLine

/-- How a program ended. -/
structure Finish where
  /-- The status: zero for success, one for a fault, two for a command line that was refused. -/
  status : Nat
  /-- What was printed. -/
  output : String
  /-- What was printed about faults. -/
  errors : String
  /-- The files afterwards. -/
  tree : FileTree

/-- The line about a fault. -/
def faultLine (fault : Fault Double) : String := "error: " ++ fault.message ++ "\n"

/-- The end of a program whose command line was refused. -/
def refused (tree : FileTree) (problem : UsageProblem) : Finish :=
  ⟨2, "", "error: " ++ (match problem with
    | .unknownArgument => "unknown argument"
    | .invalidValue => "invalid value"
    | .emptyValue => "an option lacks its value"
    | .repeatedOption => "an option was given more than once"
    | .tooManyValues => "a flag takes no value"
    | .missingFile => "no file was given"
    | .helpAsked => "see the list of options") ++ "\n", tree⟩

/-- The text with a line end after every line. -/
def withLineEnds (text : String) : String :=
  String.ofList ((Text.lines text.toList).flatMap (· ++ ['\n']))

/-- The program that reports. -/
def report (tree : FileTree) (words : List String) : Finish :=
  match readReport words with
  | .error problem => refused tree problem
  | .ok config =>
    match (Report.run config tree).result with
    | .ok (text, after) => ⟨0, withLineEnds text, "", after⟩
    | .error fault => ⟨1, "", faultLine fault, tree⟩

/-- Converts files one after the other, up to the first that cannot be converted. -/
def convertEach (tree : FileTree) : List Path → Finish
  | [] => ⟨0, "", "", tree⟩
  | path :: rest =>
    let said := "converting " ++ path.text ++ "\n"
    match EGraph.convertFile tree path with
    | .ok (_, after) =>
      let others := convertEach after rest
      { others with output := said ++ others.output }
    | .error fault => ⟨1, said, faultLine fault, tree⟩

/-- The program that converts. -/
def convert (tree : FileTree) (words : List String) : Finish :=
  match readConvert words with
  | .error problem => refused tree problem
  | .ok paths => convertEach tree paths

end ExtractionBench.CommandLine
