import ExtractionBench.Measurement.Index
/-!
# Savings over a reference

One extractor is the reference that every other one is measured against. Each result of an extractor
saves a share of the reference's dag cost; the shares of all its results add up to the percentage
that it improves the dag cost by.
-/

namespace ExtractionBench.FairShare

/-- The dag costs of the extractor that the others are measured against. -/
structure Reference (α : Type) where
  /-- The extractor. -/
  extractor : String
  /-- Its results, at most one for a benchmark. -/
  results : List (Measurement α)

variable {α : Type}

namespace Reference

/-- The dag costs of an extractor. -/
def of (ms : List (Measurement α)) (extractor : String) : Except (Fault α) (Reference α) :=
  (Measurement.index ms extractor).map fun results => ⟨extractor, results⟩

/-- The dag cost for a benchmark. -/
def dag? (r : Reference α) (name : String) : Option α :=
  (Measurement.find? name r.results).map (·.dag)

/-- The number of benchmarks. -/
def size (r : Reference α) : Nat := r.results.length

/-- There are no benchmarks. -/
def isEmpty (r : Reference α) : Bool := r.results.isEmpty

end Reference

/-- A result with the share of its extractor's improvement that it accounts for, in percent. -/
structure Saved (α : Type) where
  /-- The result. -/
  result : Measurement α
  /-- The share. -/
  improvement : α

variable [Scalar α]

/-- The share of one of `count` results, whose reference has the given dag cost. -/
def improvement (referenceDag dag : α) (count : Nat) : α :=
  ((100 : Nat) : α) * (referenceDag - dag) / referenceDag / (count : α)

/-- A result with its share. The reference must have a non-zero dag cost for the benchmark, and the
runtime must be one; a missing reference is told before a bad runtime, and that before a zero
cost. -/
def saved (reference : Reference α) (count : Nat) (m : Measurement α) :
    Except (Fault α) (Saved α) :=
  match reference.dag? m.name with
  | none => .error (.missing m.name reference.extractor m.extractor)
  | some referenceDag =>
    if !Measurement.isRuntime m.micros then
      .error (.outOfRange m.file m.name m.extractor .time m.micros)
    else if referenceDag == ((0 : Nat) : α) then .error (.zeroCost m.name reference.extractor .dag)
    else .ok ⟨m, improvement referenceDag m.dag count⟩

/-- The results of an extractor with their shares, in order. -/
def savings (reference : Reference α) (candidates : List (Measurement α)) :
    Except (Fault α) (List (Saved α)) :=
  candidates.mapM (saved reference candidates.length)

end ExtractionBench.FairShare
