import ExtractionBench.Text.Blank
/-!
# Lines and columns

A table is text whose lines hold columns between commas. A line ends at a newline; a carriage return
just before the newline belongs to the line end, any other is part of the line. The text after the
last newline is a line if there is any.
-/

namespace ExtractionBench.Text

/-- A line, read backwards, without the carriage return that belongs to its end. -/
def dropReturn : List Char → List Char
  | '\r' :: line => line
  | line => line

/-- The lines of a text, when the characters in `current` were read on its first line already, the
last one first. -/
def linesFrom (current : List Char) : List Char → List (List Char)
  | [] => if current.isEmpty then [] else [current.reverse]
  | c :: rest =>
    if c = '\n' then (dropReturn current).reverse :: linesFrom [] rest
      else linesFrom (c :: current) rest

/-- The lines of a text, without their ends. -/
def lines (text : List Char) : List (List Char) := linesFrom [] text

/-- The columns of a line, without the blanks around them. -/
def columns (line : List Char) : List (List Char) := (line.splitOn ',').map trim

end ExtractionBench.Text
