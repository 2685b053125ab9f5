import Mathlib.Tactic
import ExtractionBench.Numeric.Exact
import ExtractionBench.Statistics.FiveNumber
import ExtractionBench.Statistics.Mean

/-!
# When there is a statistic

Means, quantiles and summaries of a sample exist as soon as there are numbers to summarize, and a
geometric mean if besides all of them are positive.
-/

namespace ExtractionBench.Statistics

section Sample

variable {α : Type} [Scalar α] {method : QuantileMethod} {xs : List α} {n : Nat}

theorem sorted_eq_nil_iff : Scalar.sorted xs = [] ↔ xs = [] := by
  rw [← List.length_eq_zero_iff, ← List.length_eq_zero_iff]
  unfold Scalar.sorted
  rw [List.length_mergeSort]

theorem sorted_ne_nil (hne : xs ≠ []) : Scalar.sorted xs ≠ [] := mt sorted_eq_nil_iff.mp hne

theorem sorted_singleton (x : α) : Scalar.sorted [x] = [x] := by simp [Scalar.sorted]

/-- There are quantiles of any numbers into any groups. -/
theorem exists_quantiles_iff : (∃ qs, quantiles method xs n = .ok qs) ↔ n ≠ 0 ∧ xs ≠ [] := by
  unfold quantiles
  by_cases hn : n = 0
  · simp [hn]
  · rw [if_neg hn]
    cases hsorted : Scalar.sorted xs with
    | nil => simp [sorted_eq_nil_iff.mp hsorted]
    | cons x rest =>
      have hne : xs ≠ [] := fun hnil => by
        rw [sorted_eq_nil_iff.mpr hnil] at hsorted
        cases hsorted
      refine iff_of_true ?_ ⟨hn, hne⟩
      cases rest with
      | nil => exact ⟨_, rfl⟩
      | cons y rest => exact ⟨_, rfl⟩

theorem mean_eq (hne : xs ≠ []) : mean xs = .ok (Scalar.sum xs / (xs.length : α)) := by
  unfold mean
  rw [if_neg (by simpa using hne)]

/-- There is a standard deviation of any numbers. -/
theorem exists_stdDev [Elementary α] (hne : xs ≠ []) : ∃ d, stdDev xs = .ok d := by
  unfold stdDev
  rw [mean_eq hne]
  exact ⟨_, rfl⟩

/-- There is a summary of any numbers. -/
theorem exists_fiveNumber (hne : xs ≠ []) : ∃ s, FiveNumber.of method xs = .ok s := by
  obtain ⟨qs, hqs⟩ := exists_quantiles_iff.mpr ⟨(by decide : 4 ≠ 0), hne⟩
  have hlen : qs.length = 3 := length_of_quantiles hqs
  obtain ⟨q1, median, q3, rfl⟩ := List.length_eq_three.mp hlen
  unfold FiveNumber.of
  rw [hqs]
  exact ⟨_, rfl⟩

theorem quantiles_eq_error {fault : Fault α} (h : quantiles method xs n = .error fault) :
    ∃ shortage, fault = .noData shortage := by
  unfold quantiles at h
  split at h
  · cases h
    exact ⟨_, rfl⟩
  · split at h
    · cases h
      exact ⟨_, rfl⟩
    · cases h
    · cases h

/-- A summary is only ever refused for a lack of numbers. -/
theorem fiveNumber_eq_error {fault : Fault α} (h : FiveNumber.of method xs = .error fault) :
    ∃ shortage, fault = .noData shortage := by
  unfold FiveNumber.of at h
  split at h
  · cases h
  · cases h
    exact ⟨_, rfl⟩
  · rename_i hquantiles
    cases h
    exact quantiles_eq_error hquantiles

/-- A geometric mean is refused for a lack of numbers or for one that is not positive. -/
theorem geometricMean_eq_error [Elementary α] {fault : Fault α}
    (h : geometricMean xs = .error fault) :
    (∃ shortage, fault = .noData shortage) ∨ ∃ x, fault = .nonPositive x := by
  unfold geometricMean at h
  split at h
  · cases h
    exact .inl ⟨_, rfl⟩
  · split at h
    · cases h
      exact .inr ⟨_, rfl⟩
    · cases h

end Sample

/-- There is a geometric mean of any positive numbers. -/
theorem exists_geometricMean [Elementary Rat] {xs : List Rat} (hne : xs ≠ [])
    (hpos : ∀ x ∈ xs, 0 < x) :
    ∃ g, geometricMean xs = .ok g := by
  have hnone : xs.find? (!isPositive ·) = none := by
    refine List.find?_eq_none.mpr fun x hx => ?_
    have h0 : ((0 : Nat) : Rat) < x := by exact_mod_cast hpos x hx
    simpa [isPositive] using h0
  unfold geometricMean
  rw [if_neg (by simpa using hne), hnone]
  exact ⟨_, rfl⟩

end ExtractionBench.Statistics
