import Mathlib.Tactic
import ExtractionBench.FairShare.Curve
import ExtractionBench.Proofs.Exact
import ExtractionBench.Proofs.FairShare.Replay
import ExtractionBench.Proofs.Traversal

/-!
# What an accepted list of candidates provides

The savings of an extractor's results are computed only if every result has a reference to save over
and a runtime that can be replayed. So what the replay needs of its results, ascending runtimes that
are not negative, holds of everything that gets as far as the replay.
-/

namespace ExtractionBench.FairShare

section Savings

variable {α : Type} [Scalar α] {reference : Reference α}

/-- When a result gets its share, and which. -/
theorem saved_eq_ok_iff {count : Nat} {m : Measurement α} {s : Saved α} :
    saved reference count m = .ok s ↔
      ∃ d, reference.dag? m.name = some d ∧ Measurement.isRuntime m.micros = true ∧
        (d == ((0 : Nat) : α)) = false ∧ s = ⟨m, improvement d m.dag count⟩ := by
  unfold saved
  cases hd : reference.dag? m.name with
  | none => simp
  | some d =>
    by_cases ht : Measurement.isRuntime m.micros = true
    · cases hz : d == ((0 : Nat) : α) with
      | true => simp [ht, hz]
      | false => simp only [ht, hz, Bool.not_true, Bool.false_eq_true, if_false, Except.ok.injEq,
          Option.some.injEq, true_and, exists_eq_left', eq_comm]
    · simp [ht]

variable {candidates : List (Measurement α)} {results : List (Saved α)}

/-- The savings are those of the candidates, one for one. -/
theorem map_result_of_savings (h : savings reference candidates = .ok results) :
    results.map (·.result) = candidates := by
  refine map_eq_of_mapM h fun m _ s hs => ?_
  obtain ⟨_, _, _, _, rfl⟩ := saved_eq_ok_iff.mp hs
  rfl

/-- Every candidate with savings has a runtime. -/
theorem isRuntime_of_savings (h : savings reference candidates = .ok results) :
    ∀ m ∈ candidates, Measurement.isRuntime m.micros = true := by
  intro m hm
  obtain ⟨s, hs⟩ := exists_mapM_eq_ok_iff.mp ⟨results, h⟩ m hm
  obtain ⟨_, _, hrun, _, _⟩ := saved_eq_ok_iff.mp hs
  exact hrun

theorem exists_savings_of_curvePoints {points : List (Point α)}
    (h : curvePoints reference candidates = .ok points) :
    ∃ results, savings reference candidates = .ok results ∧ points = pointsOf results := by
  unfold curvePoints at h
  cases hsav : savings reference candidates with
  | error fault =>
    rw [hsav] at h
    cases h
  | ok results =>
    rw [hsav] at h
    cases h
    exact ⟨results, rfl, rfl⟩

end Savings

/-! ## Ascending runtimes -/

variable {reference : Reference Rat} {candidates : List (Measurement Rat)}
  {results : List (Saved Rat)}

theorem byRuntime_perm (results : List (Saved Rat)) : (byRuntime results).Perm results :=
  List.mergeSort_perm results _

/-- Sorting the results sorts their runtimes. -/
theorem runtimes_byRuntime : runtimes (byRuntime results) = Scalar.sorted (runtimes results) := by
  refine Scalar.eq_sorted ((byRuntime_perm results).map _) ?_
  exact List.pairwise_map.mpr (Scalar.pairwise_mergeSort (·.result.micros) results)

theorem pairwise_runtimes : (runtimes (byRuntime results)).Pairwise (· ≤ ·) := by
  rw [runtimes_byRuntime]
  exact Scalar.pairwise_sorted _

/-- The runtimes of the savings are those of the candidates. -/
theorem runtimes_of_savings (h : savings reference candidates = .ok results) :
    runtimes results = candidates.map (·.micros) := by
  rw [← map_result_of_savings h, List.map_map]
  rfl

theorem runtimes_perm (h : savings reference candidates = .ok results) :
    (runtimes (byRuntime results)).Perm (candidates.map (·.micros)) := by
  rw [← runtimes_of_savings h]
  exact (byRuntime_perm results).map _

/-- No accepted runtime is negative. -/
theorem runtimes_nonneg (h : savings reference candidates = .ok results) :
    ∀ m ∈ runtimes (byRuntime results), 0 ≤ m := by
  intro m hm
  obtain ⟨c, hc, rfl⟩ := List.mem_map.mp ((runtimes_perm h).mem_iff.mp hm)
  have hrun := isRuntime_of_savings h c hc
  simpa [Measurement.isRuntime] using hrun

/-! ## Shares -/

end ExtractionBench.FairShare
