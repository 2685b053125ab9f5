import Mathlib.Tactic
import ExtractionBench.Proofs.FairShare.Completion
import ExtractionBench.Proofs.Measurement.Index

/-!
# What a curve shows as saved

In the exact reading a point shows the sum of the shares of everything that has finished. With no
share negative the savings never fall. A share is not negative if the result is no worse than the
reference and the reference has a positive cost. A negative cost of the reference turns the sign of
a share, although nothing refuses it.
-/

namespace ExtractionBench.FairShare

variable {results : List (Saved Rat)}

/-! ## Points -/

theorem saving_pointOf (hs : (runtimes results).Pairwise (· ≤ ·)) (r : Round Rat) :
    (pointOf results r).saving =
      ((results.filter fun s => decide (s.result.micros < r.budget)).map (·.improvement)).sum := by
  show Scalar.sum ((finishedUnder results r.budget).map (·.improvement)) = _
  rw [Scalar.sum_rat, finishedUnder_eq_filter hs]

section Shares

variable (hs : (runtimes results).Pairwise (· ≤ ·)) (himp : ∀ s ∈ results, 0 ≤ s.improvement)

include hs himp

theorem saving_nonneg (r : Round Rat) : 0 ≤ (pointOf results r).saving := by
  rw [saving_pointOf hs]
  refine List.sum_nonneg fun x hx => ?_
  obtain ⟨s, hs, rfl⟩ := List.mem_map.mp hx
  exact himp s (List.mem_filter.mp hs).1

theorem saving_mono {r r' : Round Rat} (h : r.budget ≤ r'.budget) :
    (pointOf results r).saving ≤ (pointOf results r').saving := by
  rw [saving_pointOf hs, saving_pointOf hs]
  -- What has finished under the lower budget has finished under the higher one.
  have hsub : (results.filter fun s => decide (s.result.micros < r.budget)).Sublist
      (results.filter fun s => decide (s.result.micros < r'.budget)) := by
    refine List.monotone_filter_right results fun s hlt => ?_
    exact decide_eq_true ((of_decide_eq_true hlt).trans_le h)
  refine (hsub.map _).sum_le_sum fun x hx => ?_
  obtain ⟨s, hs, rfl⟩ := List.mem_map.mp hx
  exact himp s (List.mem_filter.mp hs).1

/-- With no share negative the savings never fall. -/
theorem pairwise_saving (hpos : ∀ m ∈ runtimes results, 0 ≤ m) (hne : results ≠ []) :
    (((rounds results).map (pointOf results)).map (·.saving)).Pairwise (· ≤ ·) := by
  rw [List.map_map]
  exact List.pairwise_map.mpr
    ((pairwise_budgets hs hpos hne).imp fun {r r'} hlt => saving_mono hs himp hlt.le)

end Shares

/-! ## Shares -/

/-- A share is what the ratio to the reference's cost lacks to one, in percent of the number of
results. -/
theorem improvement_eq {d dag : Rat} (hd : d ≠ 0) (count : Nat) :
    improvement d dag count = 100 / (count : Rat) * (1 - dag / d) := by
  have hgain : (d - dag) / d = 1 - dag / d := by rw [sub_div, div_self hd]
  show 100 * (d - dag) / d / (count : Rat) = _
  rw [mul_div_assoc, hgain]
  ring

theorem improvement_nonneg {d dag : Rat} (hd : 0 < d) (h : dag ≤ d) (count : Nat) :
    0 ≤ improvement d dag count := by
  have hratio : dag / d ≤ 1 := (div_le_one hd).mpr h
  rw [improvement_eq hd.ne']
  exact mul_nonneg (by positivity) (sub_nonneg.mpr hratio)

variable {reference : Reference Rat} {candidates : List (Measurement Rat)}

theorem rounds_nil : rounds ([] : List (Saved Rat)) = [] := rfl

/-- An extractor that is nowhere worse than a reference with positive costs is never shown as a
loss: every point of its curve shows a saving that is not negative, and from point to point the
savings never fall. -/
theorem saving_of_nowhere_worse {points : List (Point Rat)}
    (h : curvePoints reference candidates = .ok points)
    (hworse : ∀ m ∈ candidates, ∀ d, reference.dag? m.name = some d → 0 < d ∧ m.dag ≤ d) :
    (∀ p ∈ points, 0 ≤ p.saving) ∧ (points.map (·.saving)).Pairwise (· ≤ ·) := by
  obtain ⟨results, hsav, rfl⟩ := exists_savings_of_curvePoints h
  have hs : (runtimes (byRuntime results)).Pairwise (· ≤ ·) := pairwise_runtimes
  have himp : ∀ s ∈ byRuntime results, 0 ≤ s.improvement := by
    intro s hmem
    obtain ⟨m, hm, hsaved⟩ := exists_mem_of_mapM hsav ((byRuntime_perm results).mem_iff.mp hmem)
    obtain ⟨d, hd, -, -, rfl⟩ := saved_eq_ok_iff.mp hsaved
    obtain ⟨hpos, hle⟩ := hworse m hm d hd
    exact improvement_nonneg hpos hle candidates.length
  constructor
  · intro p hp
    obtain ⟨r, -, rfl⟩ := List.mem_map.mp hp
    exact saving_nonneg hs himp r
  · by_cases hne : byRuntime results = []
    · -- Without candidates there are no rounds, and the bounds on the budgets do not hold.
      show (((rounds (byRuntime results)).map (pointOf (byRuntime results))).map
        (·.saving)).Pairwise (· ≤ ·)
      rw [hne, rounds_nil]
      exact List.Pairwise.nil
    · exact pairwise_saving hs himp (runtimes_nonneg hsav) hne

/-- A result with a dag cost, and with a tree cost and a runtime of one. -/
def dagRun (extractor : String) (dag : Rat) : Measurement Rat where
  name := "a"
  extractor := extractor
  tree := 1
  dag := dag
  micros := 1
  file := ⟨""⟩
  directory := ⟨""⟩

theorem dagRun_saves :
    let points : List (Point Rat) := [⟨0, 0, 0⟩, ⟨1, 75, 1⟩]
    (∀ p ∈ points, 0 ≤ p.saving) ∧ (points.map (·.saving)).Pairwise (· ≤ ·) := by
  have hcurve : curvePoints ⟨"ilp", [dagRun "ilp" 4]⟩ [dagRun "greedy" 1] =
      .ok [⟨0, 0, 0⟩, ⟨1, 75, 1⟩] := by cbv
  refine saving_of_nowhere_worse hcurve fun m hm d hd => ?_
  obtain rfl := List.mem_singleton.mp hm
  cases hd
  decide +kernel

/-- Costs may be negative, and no check of the replay refuses them. Over a reference of cost `-10`
the better cost of `-20` is shown as a loss. -/
theorem negative_cost_shown_as_loss :
    let worse := dagRun "ref" (-10)
    let better := dagRun "greedy" (-20)
    worse.outOfRange? = none ∧ better.outOfRange? = none ∧ better.dag ≤ worse.dag ∧
      curves [worse, better] "ref" [] = .ok [⟨"greedy", [⟨0, 0, 0⟩, ⟨1, -100, 1⟩]⟩] := by
  refine ⟨rfl, rfl, ?_, ?_⟩
  · decide +kernel
  · cbv

end ExtractionBench.FairShare
