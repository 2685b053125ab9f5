import Mathlib.Tactic
import ExtractionBench.Proofs.FairShare.Refusals

/-!
# What the curves depend on

The curves look at the results of the reference and of the extractors that are not excluded, and at
those of each extractor on their own. So excluded results make no difference to them, whatever is
wrong with these, and neither does it matter how the results of several extractors are interleaved.
-/

namespace ExtractionBench.FairShare

open Measurement (ofExtractor extractors)

variable {α : Type} {ms ms' : List (Measurement α)} {reference e : String} {excluded : List String}

/-- The results of an extractor are left out: it is excluded, and not the reference. -/
def LeftOut (reference : String) (excluded : List String) (e : String) : Prop :=
  e ∈ excluded ∧ e ≠ reference

instance decidableLeftOut : DecidablePred (LeftOut reference excluded) :=
  fun _ => inferInstanceAs (Decidable (_ ∧ _))

theorem not_leftOut_reference : ¬ LeftOut reference excluded reference := fun h => h.2 rfl

/-- The results of an extractor are not touched when those of others are removed. -/
theorem ofExtractor_filter (h : ¬ LeftOut reference excluded e) :
    ofExtractor e (ms.filter fun m => ¬ LeftOut reference excluded m.extractor) =
      ofExtractor e ms := by
  rw [ofExtractor, ofExtractor, List.filter_filter]
  refine List.filter_congr fun m _ => ?_
  by_cases he : m.extractor = e
  · simp [he, h]
  · simp [he]

/-- A candidate has results, is not left out and is not the reference. -/
theorem candidate_iff :
    Candidate ms reference excluded e ↔
      ofExtractor e ms ≠ [] ∧ ¬ LeftOut reference excluded e ∧ e ≠ reference := by
  have hresult : (∃ m ∈ ms, m.extractor = e) ↔ ofExtractor e ms ≠ [] := by
    simp [ofExtractor]
  rw [Candidate, hresult, LeftOut]
  tauto

section Agree

variable (h : ∀ e, ¬ LeftOut reference excluded e → ofExtractor e ms = ofExtractor e ms')

include h

theorem candidates_congr :
    candidates ms reference excluded = candidates ms' reference excluded := by
  refine pairwise_candidates.eq_of_mem_iff pairwise_candidates fun e => ?_
  rw [mem_candidates_iff, mem_candidates_iff, candidate_iff, candidate_iff]
  refine and_congr_left fun hkept => ?_
  rw [h e hkept.1]

theorem reference_congr : Reference.of ms reference = Reference.of ms' reference := by
  unfold Reference.of Measurement.index
  rw [h reference not_leftOut_reference]

variable [Scalar α]

/-- The curve of an extractor that is kept stays the same. -/
theorem curveOf_congr {r : Reference α} (hkept : ¬ LeftOut reference excluded e) :
    curveOf r ms e = curveOf r ms' e := by
  unfold curveOf Measurement.index
  rw [h e hkept]

theorem curves_congr : curves ms reference excluded = curves ms' reference excluded := by
  unfold curves
  rw [reference_congr h]
  refine bind_congr fun r => ?_
  split
  · rfl
  · show (candidates ms reference excluded).mapM (curveOf r ms) =
      (candidates ms' reference excluded).mapM (curveOf r ms')
    rw [candidates_congr h]
    refine mapM_congr fun e he => curveOf_congr h ?_
    exact (candidate_iff.mp (mem_candidates_iff.mp he)).2.1

end Agree

/-- Results that are left out make no difference to the curves, to the fault that is told instead of
them or to the warning: two lists of results have the same ones if they are equal when what is left
out is removed, and more generally if the results of each extractor that is not left out are the
same, in the same order. -/
theorem curves_ignore_left_out [Scalar α] (ms ms' : List (Measurement α)) (reference : String)
    (excluded : List String) :
    ((ms.filter fun m => ¬ LeftOut reference excluded m.extractor) =
        (ms'.filter fun m => ¬ LeftOut reference excluded m.extractor) →
      curves ms reference excluded = curves ms' reference excluded) ∧
    ((∀ e, ¬ LeftOut reference excluded e → ofExtractor e ms = ofExtractor e ms') →
      curves ms reference excluded = curves ms' reference excluded ∧
        curveWarnings ms reference = curveWarnings ms' reference) := by
  refine ⟨fun hremoved => curves_congr fun e he => ?_, fun h => ⟨curves_congr h, ?_⟩⟩
  · rw [← ofExtractor_filter he, hremoved, ofExtractor_filter he]
  · unfold curveWarnings
    rw [h reference not_leftOut_reference]

end ExtractionBench.FairShare
