import ExtractionBench.Decimal.Reading
import ExtractionBench.Measurement.Basic
import ExtractionBench.Text.Lines
/-!
# Tables of results

The runner's table has a row per result with five columns: benchmark, extractor, tree cost, dag
cost, microseconds. Blank lines count only for the line numbers, and so does a first line that
starts with `file`.
-/

namespace ExtractionBench.Measurement

/-- The text that the heading of a table starts with. -/
def headingMark : List Char := ['f', 'i', 'l', 'e']

/-- A trimmed line holds no row: it is blank, or the heading on the first line. -/
def isNoRow (first : Bool) (line : List Char) : Bool :=
  line.isEmpty || (first && headingMark.isPrefixOf line)

/-- The number in a column. -/
def readColumn (quantity : Quantity) (column : List Char) : Except (LineDefect Double) Double :=
  match Decimal.read? column with
  | some x => .ok x
  | none => .error (.notNumber quantity (String.ofList column))

/-- The result in a row, read from a file. -/
def ofRow (path : Path) (row : List Char) : Except (LineDefect Double) (Measurement Double) :=
  match Text.columns row with
  | [name, extractor, tree, dag, micros] => do
    let tree ← readColumn (.cost .tree) tree
    let dag ← readColumn (.cost .dag) dag
    let micros ← readColumn .time micros
    let m : Measurement Double :=
      { name := String.ofList name, extractor := String.ofList extractor, tree, dag, micros,
        file := path, directory := path.parent }
    match m.outOfRange? with
    | some (quantity, value) => .error (.outOfRange quantity value)
    | none => .ok m
  | columns => .error (.columnCount columns.length)

/-- The results in the lines of a table, of which the first has the given number. -/
def ofLines (path : Path) :
    (number : Nat) → List (List Char) → Except (Fault Double) (List (Measurement Double))
  | _, [] => .ok []
  | number, line :: rest =>
    let row := Text.trim line
    if isNoRow (number == 1) row then ofLines path (number + 1) rest
    else
      match ofRow path row with
      | .ok m => (ofLines path (number + 1) rest).map (m :: ·)
      | .error defect => .error (.line path number defect)

/-- The results in a table. -/
def ofTable (contents : String) (path : Path) : Except (Fault Double) (List (Measurement Double)) :=
  ofLines path 1 (Text.lines contents.toList)

end ExtractionBench.Measurement
