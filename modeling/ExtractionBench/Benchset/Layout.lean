import ExtractionBench.Benchset.Tables
import ExtractionBench.Decimal.Notation
/-!
# Tables in columns

A table with a line for each suite and a column for each extractor. The first column is flush left,
the others flush right; where a suite has no value for an extractor the cell is blank.
-/

namespace ExtractionBench.Benchset

variable {β : Type}

/-- The heading of the first column. -/
def heading : String := "benchset"

/-- The least width of a column of values. -/
def leastWidth : Nat := 8

/-- The extractors of a table in ascending order. -/
def columns (grid : Grid β) : List String :=
  Ascending.names (grid.flatMap fun row => row.2.map (·.1))

/-- The text followed by blanks, up to a width in characters. -/
def padRight (width : Nat) (s : String) : String :=
  s ++ String.ofList (List.replicate (width - s.length) ' ')

/-- The text after blanks, up to a width in characters. -/
def padLeft (width : Nat) (s : String) : String :=
  String.ofList (List.replicate (width - s.length) ' ') ++ s

/-- A padded text is as wide as asked for, or as it was. -/
theorem length_padRight (width : Nat) (s : String) :
    (padRight width s).length = max width s.length := by
  simp only [padRight, String.length_append, String.length_ofList, List.length_replicate]
  omega

/-- A padded text is as wide as asked for, or as it was. -/
theorem length_padLeft (width : Nat) (s : String) :
    (padLeft width s).length = max width s.length := by
  simp only [padLeft, String.length_append, String.length_ofList, List.length_replicate]
  omega

/-- The width of the first column: room for the bytes of every suite and of the heading. -/
def firstWidth (grid : Grid β) : Nat :=
  (grid.map (·.1.utf8ByteSize)).foldl max heading.utf8ByteSize

/-- The width of an extractor's column: room for the bytes of its name. -/
def columnWidth (extractor : String) : Nat := max extractor.utf8ByteSize leastWidth

/-- A line of the table. -/
def line (first : Nat) (columns : List String) (start : String) (cell : String → String) : String :=
  padRight first start ++
    String.join (columns.map fun c => "  " ++ padLeft (columnWidth c) (cell c)) ++ "\n"

/-- The table in columns. -/
def layout (value : β → String) (grid : Grid β) : String :=
  let cs := columns grid
  let first := firstWidth grid
  line first cs heading id
    ++ String.join (grid.map fun (suite, row) =>
      line first cs suite fun c => ((Ascending.find? Ascending.nameBefore c row).map value).getD "")

/-- A table of counts. -/
def layoutCounts (grid : Grid Nat) : String := layout toString grid

/-- A table of ratios, with four places each. -/
def layoutRatios (grid : Grid Double) : String := layout (Decimal.fixed 4) grid

end ExtractionBench.Benchset
