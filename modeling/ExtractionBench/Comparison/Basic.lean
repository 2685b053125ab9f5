import ExtractionBench.Measurement.Index
import ExtractionBench.Statistics.FiveNumber
import ExtractionBench.Statistics.Mean
/-!
# Comparing two extractors

The first extractor's results over the second's, benchmark by benchmark, and the means and quartiles
of these ratios. Both must have a result for every benchmark that either has one for, and every cost
must be positive.
-/

namespace ExtractionBench.Comparison

open Statistics

/-- Whether two extractors are expected to agree on tree costs. -/
inductive TreeCostPolicy where
  /-- Yes: a difference is reported. -/
  | mustMatch
  /-- No: a difference is not reported. -/
  | mayDiffer
  deriving DecidableEq, Repr

/-- How two extractors are compared. -/
structure RatioConfig where
  /-- Whether tree cost differences are reported. -/
  treeCosts : TreeCostPolicy := .mustMatch
  /-- How quartiles are interpolated. -/
  quantileMethod : QuantileMethod := .exclusive
  deriving DecidableEq, Repr

/-- A benchmark for which the two extractors found different costs. -/
structure Mismatch (α : Type) where
  /-- The benchmark. -/
  name : String
  /-- The cost that differs. -/
  kind : CostKind
  /-- The first extractor's cost. -/
  first : α
  /-- The second extractor's cost. -/
  second : α
  deriving DecidableEq, Repr

/-- The ratios for one benchmark. -/
structure Ratios (α : Type) where
  /-- The benchmark. -/
  name : String
  /-- The ratio of the tree costs. -/
  tree : α
  /-- The ratio of the dag costs. -/
  dag : α
  /-- The ratio of the runtimes. -/
  micros : α
  deriving DecidableEq, Repr

/-- The comparison of two extractors. -/
structure Summary (α : Type) where
  /-- The first extractor. -/
  first : String
  /-- The second extractor. -/
  second : String
  /-- The ratios, benchmarks in ascending order. -/
  ratios : List (Ratios α)
  /-- The differing costs, benchmarks in ascending order. -/
  mismatches : List (Mismatch α)
  /-- The first extractor's total runtime. -/
  firstMicros : α
  /-- The second extractor's total runtime. -/
  secondMicros : α
  /-- The geometric mean of the tree cost ratios. -/
  meanTree : α
  /-- The geometric mean of the dag cost ratios. -/
  meanDag : α
  /-- The geometric mean of the runtime ratios. -/
  meanMicros : α
  /-- The quartiles of the tree cost ratios. -/
  tree : FiveNumber α
  /-- The quartiles of the dag cost ratios. -/
  dag : FiveNumber α
  /-- The quartiles of the runtime ratios. -/
  micros : FiveNumber α
  deriving DecidableEq, Repr

variable {α : Type} [Scalar α]

/-- The results of two extractors for one benchmark. -/
abbrev Pair (α : Type) := Measurement α × Measurement α

/-- The differing costs of a benchmark, the tree cost before the dag cost. -/
def mismatchesOf (policy : TreeCostPolicy) (pair : Pair α) : List (Mismatch α) :=
  let differing (kind : CostKind) : List (Mismatch α) :=
    if pair.1.cost kind != pair.2.cost kind then
      [⟨pair.1.name, kind, pair.1.cost kind, pair.2.cost kind⟩] else []
  (if policy = .mustMatch then differing .tree else []) ++ differing .dag

/-- The ratio of two costs, both of which must be positive; the second is looked at first. -/
def costRatio (first second : String) (kind : CostKind) (pair : Pair α) : Except (Fault α) α :=
  let zero : α := ((0 : Nat) : α)
  if ¬ zero < pair.2.cost kind then .error (.zeroCost pair.1.name second kind)
  else if ¬ zero < pair.1.cost kind then .error (.zeroCost pair.1.name first kind)
  else .ok (pair.1.cost kind / pair.2.cost kind)

/-- The ratio of two runtimes, of which each counts as one microsecond at least. -/
def timeRatio (pair : Pair α) : α :=
  let one : α := ((1 : Nat) : α)
  Scalar.greatest pair.1.micros one / Scalar.greatest pair.2.micros one

/-- The ratios of a benchmark. -/
def ratiosOf (first second : String) (pair : Pair α) : Except (Fault α) (Ratios α) := do
  let tree ← costRatio first second .tree pair
  let dag ← costRatio first second .dag pair
  return ⟨pair.1.name, tree, dag, timeRatio pair⟩

/-- The results of both extractors for a benchmark that one of them has a result for. -/
def pairFor (first second : String) (ofFirst ofSecond : List (Measurement α)) (name : String) :
    Except (Fault α) (Pair α) :=
  match Measurement.find? name ofFirst, Measurement.find? name ofSecond with
  | none, _ => .error (.missing name first second)
  | _, none => .error (.missing name second first)
  | some a, some b => .ok (a, b)

/-- The results of both extractors for each of some benchmarks, with their ratios. -/
def comparePairs (first second : String) (ofFirst ofSecond : List (Measurement α))
    (names : List String) :
    Except (Fault α) (List (Pair α × Ratios α)) :=
  names.mapM fun name => do
    let pair ← pairFor first second ofFirst ofSecond name
    let ratios ← ratiosOf first second pair
    return (pair, ratios)

variable [Elementary α]

/-- The comparison of two extractors, from their ratios. -/
def Summary.ofPairs (config : RatioConfig) (first second : String)
    (pairs : List (Pair α × Ratios α)) :
    Except (Fault α) (Summary α) := do
  if pairs.isEmpty then throw (.noData (.comparison first second))
  let ratios := pairs.map (·.2)
  let trees := ratios.map (·.tree)
  let dags := ratios.map (·.dag)
  let times := ratios.map (·.micros)
  let total (micros : Pair α → α) : α :=
    (pairs.map fun p => micros p.1).foldl (· + ·) ((0 : Nat) : α)
  return {
    first, second, ratios
    mismatches := pairs.flatMap fun p => mismatchesOf config.treeCosts p.1
    firstMicros := total (·.1.micros)
    secondMicros := total (·.2.micros)
    meanTree := ← geometricMean trees
    meanDag := ← geometricMean dags
    meanMicros := ← geometricMean times
    tree := ← FiveNumber.of config.quantileMethod trees
    dag := ← FiveNumber.of config.quantileMethod dags
    micros := ← FiveNumber.of config.quantileMethod times }

/-- The comparison of two extractors on every benchmark that either has a result for. -/
def summarize (config : RatioConfig) (ms : List (Measurement α)) (first second : String) :
    Except (Fault α) (Summary α) := do
  let ofFirst ← Measurement.index ms first
  let ofSecond ← Measurement.index ms second
  let pairs ← comparePairs first second ofFirst ofSecond
      (Measurement.benchmarks (ofFirst ++ ofSecond))
  Summary.ofPairs config first second pairs

/-- The comparisons of every ordered pair of distinct extractors, in ascending order. -/
def summarizeAll (config : RatioConfig) (ms : List (Measurement α)) :
    Except (Fault α) (List (Summary α)) :=
  let es := Measurement.extractors ms
  let pairs := es.flatMap fun first => (es.filter (· != first)).map fun second => (first, second)
  pairs.mapM fun pair => summarize config ms pair.1 pair.2

end ExtractionBench.Comparison
