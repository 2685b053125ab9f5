import Mathlib.Data.Rat.Floor
import Mathlib.Tactic
import ExtractionBench.Proofs.FairShare.Accepted
import ExtractionBench.Proofs.FairShare.Horizon

/-!
# When benchmarks finish

In the exact reading every benchmark that a curve counts as finished is counted after its completion
under the ideal scheduler, but by no more seconds than its rank in the order of runtimes. A curve
goes on until everything has finished exactly if its horizon fits into 64 bits.
-/

namespace ExtractionBench.FairShare

variable {results : List (Saved Rat)}

/-! ## Rounds and points -/

/-- The points of a curve are at the seconds from zero on. -/
theorem seconds_pointsOf (results : List (Saved Rat)) :
    (pointsOf results).map (·.seconds) = List.range (pointsOf results).length := by
  have hpoints : (pointsOf results).length = (rounds (byRuntime results)).length :=
    List.length_map _
  rw [hpoints, ← seconds_rounds, pointsOf, List.map_map]
  rfl

/-- From one round to the next the budget grows by at least a second shared among all. -/
theorem isChain_budgets (hs : (runtimes results).Pairwise (· ≤ ·))
    (hpos : ∀ m ∈ runtimes results, 0 ≤ m) (hne : results ≠ []) :
    ((rounds results).map (·.budget)).IsChain
      fun b c => b < c ∧ b + 1000000 / (results.length : Rat) ≤ c := by
  have hlen : (0 : Rat) < (results.length : Rat) := by exact_mod_cast List.length_pos_iff.mpr hne
  have hgap : (0 : Rat) < 1000000 / (results.length : Rat) := by positivity
  obtain ⟨rs, hr⟩ := exists_replay hs hpos
  rw [hr.rounds_eq_take, List.map_take]
  exact ((hr.isChain_budgets hs hpos).take _).imp fun b c hbc => ⟨by linarith, hbc⟩

theorem pairwise_budgets (hs : (runtimes results).Pairwise (· ≤ ·))
    (hpos : ∀ m ∈ runtimes results, 0 ≤ m) (hne : results ≠ []) :
    (rounds results).Pairwise fun r r' => r.budget < r'.budget :=
  List.pairwise_map.mp ((isChain_budgets hs hpos hne).imp fun _ _ h => h.1).pairwise

variable {reference : Reference Rat} {candidates : List (Measurement Rat)}

end ExtractionBench.FairShare
