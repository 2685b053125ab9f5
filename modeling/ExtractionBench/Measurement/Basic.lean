import ExtractionBench.Fault
import ExtractionBench.Numeric.Scalar
/-!
# Measurements

One result of the benchmark runner: an extractor was run on an e-graph, and the costs of what it
extracted and its runtime were recorded. Where the result was read from is kept with it.
-/

namespace ExtractionBench

/-- The result of one extractor on one benchmark. -/
structure Measurement (α : Type) where
  /-- The name of the benchmark, in most cases the path of its e-graph. -/
  name : String
  /-- The name of the extractor. -/
  extractor : String
  /-- The tree cost. -/
  tree : α
  /-- The dag cost. -/
  dag : α
  /-- The runtime in microseconds. -/
  micros : α
  /-- The file that the result was read from. -/
  file : Path
  /-- The directory of that file. -/
  directory : Path
  deriving DecidableEq, Repr

namespace Measurement

variable {α : Type}

/-- One of the two costs. -/
def cost (m : Measurement α) : CostKind → α
  | .tree => m.tree
  | .dag => m.dag

/-- The suite that the benchmark belongs to, the second step of its name: `egg` for
`data/egg/math.json`. -/
def benchset? (m : Measurement α) : Option String :=
  match m.name.toList.splitOn '/' with
  | _ :: suite :: _ => if suite.isEmpty then none else some (String.ofList suite)
  | _ => none

variable [Scalar α]

/-- The number can be a runtime: it is finite and not negative. -/
def isRuntime (x : α) : Bool := Scalar.isFinite x && decide (((0 : Nat) : α) ≤ x)

/-- The first quantity that cannot be measured against. Costs must be finite, and the runtime finite
and not negative. -/
def outOfRange? (m : Measurement α) : Option (Quantity × α) :=
  if !Scalar.isFinite m.tree then some (.cost .tree, m.tree)
  else if !Scalar.isFinite m.dag then some (.cost .dag, m.dag)
  else if !isRuntime m.micros then some (.time, m.micros)
  else none

/-- A dag cost at or above this is a failure or a timeout. -/
def dagCap : α := ((1000 : Nat) : α)

/-- The result with a dag cost at or above the cap stored as the cap. -/
def clamp (m : Measurement α) : Measurement α :=
  if dagCap ≤ m.dag then { m with dag := dagCap } else m

/-- Microseconds in a second. -/
def microsPerSecond : α := ((1000000 : Nat) : α)

end Measurement

end ExtractionBench
