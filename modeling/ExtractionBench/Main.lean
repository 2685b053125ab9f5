import ExtractionBench.CommandLine.Programs
/-!
# The command

`report …` reports on benchmark results, `convert …` converts e-graph files. The command looks at
the files that its words point at, lets the program work on them as a value, and then writes what
has changed and prints what was said.
-/

namespace ExtractionBench.Command

/-- The names on the way from the root to the working directory. -/
def workplace : IO Place := do
  return ((← IO.currentDir).toString.splitOn "/").filter (· ≠ "")

/-- The path of a place on disk. -/
def onDisk (place : Place) : String := "/" ++ "/".intercalate place

/-- The tree with what the disk has at a place. -/
def observePlace (tree : FileTree) (place : Place) : IO FileTree := do
  let path := (← IO.currentDir) / onDisk place
  if ← path.isDir then return tree.makeDirectories place
  if ← path.pathExists then return tree.put place (.file (.bytes (← IO.FS.readBinFile path).toList))
  return tree

/-- The tree with what the disk has at every step of a path. -/
def observe (tree : FileTree) (path : Path) : IO FileTree := do
  let (start, segments) := match path.segments with
    | [] :: rest => ([], rest)
    | segments => (tree.workplace, segments)
  (List.range (segments.length + 1)).foldlM (fun tree n =>
    observePlace tree ((segments.take n).foldl FileTree.step start)) tree

/-- The tree with everything that the disk has at a place and below it. -/
partial def observeBelow (tree : FileTree) (place : Place) : IO FileTree := do
  let path := (← IO.currentDir) / onDisk place
  let tree ← observePlace tree place
  if ← path.isDir then
    (← path.readDir).toList.foldlM (fun tree entry => observeBelow tree (place ++ [entry.fileName]))
      tree
  else return tree

/-- The files that a report looks at, and the directory that its chart is written to. -/
def observeForReport (tree : FileTree) (words : List String) : IO FileTree := do
  match CommandLine.readReport words with
  | .error _ => return tree
  | .ok config =>
    let tree ← observe tree config.outDir
    if config.files.isEmpty then observeBelow tree (tree.workplace ++ [FileTree.resultsDirectory])
    else config.files.foldlM observe tree

/-- The files that a conversion reads and writes. -/
def observeForConvert (tree : FileTree) (words : List String) : IO FileTree := do
  match CommandLine.readConvert words with
  | .error _ => return tree
  | .ok paths =>
    paths.foldlM (fun tree path => do observe (← observe tree path) (EGraph.outputPath path)) tree

/-- Writes a file. There is no renderer for charts here: of a chart the parts of the drawing are
written. -/
def writeContent (place : Place) : Content → IO Unit
  | .bytes data => IO.FS.writeBinFile (onDisk place) ⟨data.toArray⟩
  | .drawing d => IO.FS.writeFile (onDisk place) (reprStr d)

/-- Writes the files that have changed. -/
def writeChanges (before after : FileTree) : IO Unit :=
  after.entries.forM fun (place, entry) =>
    match entry with
    | .file content =>
      if before.at? place = some entry then pure () else writeContent place content
    | .directory => pure ()

/-- Ends a program: the changed files, the output, the status. -/
def finish (before : FileTree) (f : CommandLine.Finish) : IO UInt32 := do
  writeChanges before f.tree
  IO.print f.output
  IO.eprint f.errors
  return f.status.toUInt32

/-- What the command is used for. -/
def usage : String :=
  "usage: report [files] [options] | convert files\n"

/-- Runs the program that the first word names. -/
def run (words : List String) : IO UInt32 := do
  let tree := FileTree.empty (← workplace)
  match words with
  | "report" :: rest =>
    let tree ← observeForReport tree rest
    finish tree (CommandLine.report tree rest)
  | "convert" :: rest =>
    let tree ← observeForConvert tree rest
    finish tree (CommandLine.convert tree rest)
  | _ =>
    IO.eprint usage
    return 2

end ExtractionBench.Command

/-- The command line. -/
def main (words : List String) : IO UInt32 := ExtractionBench.Command.run words
