import ExtractionBench.FairShare.Savings
/-!
# Improvement over time under a fair share

Recorded runtimes are replayed under a scheduler that starts every benchmark of an extractor at once
and splits the processor evenly among those that have not finished. What has finished after each
second, and how much dag cost it saved over the reference, puts fast extractors and thorough ones on
one axis.

At second `i` the results that finished under the budget of the second before are charged their
runtimes, and the rest of the `i` seconds is split evenly among the others: that is the new budget
of each. Everything whose runtime is below it counts as finished.
-/

namespace ExtractionBench.FairShare

/-- What has been saved after some seconds. -/
structure Point (α : Type) where
  /-- The seconds. -/
  seconds : Nat
  /-- The improvement of the dag cost by what has finished, in percent. -/
  saving : α
  /-- The number of finished results. -/
  finished : Nat
  deriving DecidableEq, Repr

/-- The improvement of an extractor over time. -/
structure Curve (α : Type) where
  /-- The extractor. -/
  extractor : String
  /-- A point for every second until everything has finished or the horizon is reached. -/
  points : List (Point α)
  deriving DecidableEq, Repr

variable {α : Type} [Scalar α]

/-- The results in ascending order of runtimes. -/
def byRuntime (results : List (Saved α)) : List (Saved α) :=
  results.mergeSort fun a b => Scalar.totalLe a.result.micros b.result.micros

/-- The results that finish under a budget. In ascending order of runtimes they are the first
ones. -/
def finishedUnder (results : List (Saved α)) (budget : α) : List (Saved α) :=
  results.takeWhile fun r => decide (r.result.micros < budget)

/-- The total runtime of some results. -/
def totalMicros (results : List (Saved α)) : α := Scalar.sum (results.map (·.result.micros))

/-- The budget of each unfinished result after `seconds`, when these results finished under the
budget before. -/
def nextBudget (finished : List (Saved α)) (active seconds : Nat) : α :=
  ((seconds : α) * Measurement.microsPerSecond - totalMicros finished) / (active : α)

/-- A second of the replay. -/
structure Round (α : Type) where
  /-- The seconds so far. -/
  seconds : Nat
  /-- The budget of each unfinished result. -/
  budget : α
  deriving DecidableEq, Repr

/-- The rounds from a second on, for results in ascending order of runtimes of which those below
`budget` finished in the round before; they end when everything has finished, and `steps` bounds
their number. -/
def roundsFrom (results : List (Saved α)) : (steps seconds : Nat) → (budget : α) → List (Round α)
  | 0, _, _ => []
  | steps + 1, seconds, budget =>
    let before := finishedUnder results budget
    let active := results.length - before.length
    if active = 0 then []
    else
      let next := nextBudget before active seconds
      ⟨seconds, next⟩ :: roundsFrom results steps (seconds + 1) next

/-- There is a round for every second, without a gap. -/
theorem seconds_roundsFrom (results : List (Saved α)) (steps seconds : Nat) (budget : α) :
    (roundsFrom results steps seconds budget).map (·.seconds)
      = List.range' seconds (roundsFrom results steps seconds budget).length := by
  induction steps generalizing seconds budget with
  | zero => simp [roundsFrom]
  | succ steps ih =>
    simp only [roundsFrom]
    split
    · simp
    · simpa [List.range'_succ] using ih _ _

/-- The last second that a curve can reach. Once the seconds exceed the total runtime, the budget is
above the mean runtime of the unfinished results, so with every further second one more result
finishes. The seconds are counted in 64 bits and wrap around, so when the total runtime is too long
the horizon comes before everything has finished. -/
def horizon (results : List (Saved α)) : UInt64 :=
  Scalar.ceilWord (totalMicros results / Measurement.microsPerSecond)
    + UInt64.ofNat results.length + 1

/-- The rounds of a replay up to its horizon, for results in ascending order of runtimes. -/
def rounds (results : List (Saved α)) : List (Round α) :=
  roundsFrom results ((horizon results).toNat + 1) 0 ((0 : Nat) : α)

/-- What a round shows: everything below its budget has finished. -/
def pointOf (results : List (Saved α)) (r : Round α) : Point α :=
  let finished := finishedUnder results r.budget
  ⟨r.seconds, Scalar.sum (finished.map (·.improvement)), finished.length⟩

/-- The points of the curve of some results. -/
def pointsOf (results : List (Saved α)) : List (Point α) :=
  let sorted := byRuntime results
  (rounds sorted).map (pointOf sorted)

/-- The points of an extractor's curve. -/
def curvePoints (reference : Reference α) (candidates : List (Measurement α)) :
    Except (Fault α) (List (Point α)) :=
  (savings reference candidates).map pointsOf

/-- The curve of one extractor, which must have at most one result for a benchmark. -/
def curveOf (reference : Reference α) (ms : List (Measurement α)) (extractor : String) :
    Except (Fault α) (Curve α) := do
  let _ ← Measurement.index ms extractor
  let points ← curvePoints reference (Measurement.ofExtractor extractor ms)
  return ⟨extractor, points⟩

/-- The curves of every extractor but the reference and the excluded ones, in ascending order.
Without results for the reference there are none. -/
def curves (ms : List (Measurement α)) (reference : String) (excluded : List String) :
    Except (Fault α) (List (Curve α)) := do
  let r ← Reference.of ms reference
  if r.isEmpty then return []
  let candidates :=
    (Measurement.extractors ms).filter fun e => e != reference && !excluded.contains e
  candidates.mapM (curveOf r ms)

/-- The warning that goes with curves: there is nothing to measure against. -/
def curveWarnings (ms : List (Measurement α)) (reference : String) : List Warning :=
  if (Measurement.ofExtractor reference ms).isEmpty then [.noReferenceForCurves reference] else []

end ExtractionBench.FairShare
