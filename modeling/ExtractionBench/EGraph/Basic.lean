import ExtractionBench.Numeric.Double
/-!
# E-graphs

An e-graph as extractors read it: its nodes in order, each under an id, the e-classes to extract,
and a comment. A child of a node is the id of a node of the child's e-class.
-/

namespace ExtractionBench

/-- A node of an e-graph. -/
structure ENode where
  /-- The operator. -/
  op : String
  /-- The cost of the node itself. -/
  cost : Double
  /-- The e-class that the node belongs to. -/
  eclass : String
  /-- A node of each child's e-class. -/
  children : List String
  deriving DecidableEq, Repr

/-- An e-graph. -/
structure EGraph where
  /-- The nodes by id, in order. -/
  nodes : List (String × ENode)
  /-- The e-classes to extract. -/
  roots : List String
  /-- A comment. -/
  comment : Option String
  deriving DecidableEq, Repr

namespace EGraph

/-- The id of the `k`-th node of an e-class, counted from zero. -/
def nodeId (eclass : String) (k : Nat) : String := eclass ++ "__" ++ toString k

end EGraph

end ExtractionBench
