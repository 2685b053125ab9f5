import ExtractionBench.Decimal.Reading
import ExtractionBench.EGraph.Basic
import ExtractionBench.Fault
import ExtractionBench.Text.Lines
import Std.Data.TreeMap
/-!
# The older format of e-graphs

A text with a line per node: the e-class, the cost, the operator and the e-classes of the children,
between commas. A line `## root: c` makes `c` a root; any other line that starts with `#` is a
comment, of which the last counts. Blank lines are left aside. Nodes are numbered within their
e-class in order, and a child stands for node `0` of its e-class.
-/

namespace ExtractionBench.EGraph

/-- What a line with a root starts with. -/
def rootMark : List Char := "## root: ".toList

/-- A line of the format. -/
inductive Line where
  /-- A root. -/
  | root (eclass : String)
  /-- A comment. -/
  | comment (text : String)
  /-- Nothing. -/
  | blank
  /-- A node. -/
  | node (eclass : String) (cost : Double) (op : String) (children : List String)
  deriving DecidableEq, Repr

/-- The node in a trimmed line. -/
def Line.ofColumns (line : List Char) : Except (LineDefect Double) Line :=
  match Text.columns line with
  | eclass :: cost :: op :: children =>
    match Decimal.read? cost with
    | some x => .ok (.node (String.ofList eclass) x (String.ofList op) (children.map String.ofList))
    | none => .error (.badCost (String.ofList cost))
  | _ => .error (.tooFewColumns (String.ofList line))

/-- What a line holds. The blanks around it do not count. -/
def Line.read (raw : List Char) : Except (LineDefect Double) Line :=
  let line := Text.trim raw
  if rootMark.isPrefixOf line then .ok (.root (String.ofList (line.drop rootMark.length)))
  else
    match line with
    | [] => .ok .blank
    | '#' :: _ => .ok (.comment (String.ofList line))
    | _ => Line.ofColumns line

/-- What the lines of a text hold, of which the first has the given number; `path` is where they
come from. -/
def readLines (path : Path) : (number : Nat) → List (List Char) → Except (Fault Double) (List Line)
  | _, [] => .ok []
  | number, raw :: rest =>
    match Line.read raw with
    | .ok line => (readLines path (number + 1) rest).map (line :: ·)
    | .error defect => .error (.line path number defect)

/-- The nodes of some lines by id, when the e-classes have as many nodes before them as `counts`
says. -/
def nodesFrom (counts : Std.TreeMap String Nat) : List Line → List (String × ENode)
  | [] => []
  | .node eclass cost op children :: rest =>
    let k := counts.getD eclass 0
    (nodeId eclass k, ⟨op, cost, eclass, children.map (nodeId · 0)⟩) :: nodesFrom
      (counts.insert eclass (k + 1)) rest
  | _ :: rest => nodesFrom counts rest

/-- The root in a line. -/
def Line.root? : Line → Option String
  | .root eclass => some eclass
  | _ => none

/-- The comment in a line. -/
def Line.comment? : Line → Option String
  | .comment text => some text
  | _ => none

/-- The e-graph that some lines describe. A root counts where it comes first, and of the comments
the last. -/
def ofLines (lines : List Line) : EGraph where
  nodes := nodesFrom ∅ lines
  roots := (lines.filterMap Line.root?).eraseDups
  comment := (lines.filterMap Line.comment?).getLast?

/-- The e-graph that a text in the older format describes. -/
def ofLegacy (contents : String) (path : Path) : Except (Fault Double) EGraph :=
  (readLines path 1 (Text.lines contents.toList)).map ofLines

end ExtractionBench.EGraph
