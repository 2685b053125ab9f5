import Mathlib.Tactic
import ExtractionBench.Proofs.Comparison.Reversal

/-!
# What a comparison matches

A comparison pairs the results of two extractors by benchmark. Where it succeeds each result of
either extractor is in exactly one pair, and the ratio that is listed with a pair is that of its dag
costs.
-/

namespace ExtractionBench.Comparison

open Measurement (ofExtractor benchmarks)

variable {ms : List (Measurement Rat)} {first second : String}
  {pairs : List (Pair Rat × Ratios Rat)}

/-- What was compared: a result of each extractor for one benchmark, and the ratio of their dag
costs, of which the second is positive. -/
structure Matched (ms : List (Measurement Rat)) (first second : String)
    (p : Pair Rat × Ratios Rat) : Prop where
  first : p.1.1 ∈ ofExtractor first ms
  second : p.1.2 ∈ ofExtractor second ms
  name : p.1.2.name = p.1.1.name
  listed : p.2.name = p.1.1.name
  positive : 0 < p.1.2.dag
  dag : p.2.dag = p.1.1.dag / p.1.2.dag

section Pairs

variable (h : comparePairs first second (ofExtractor first ms) (ofExtractor second ms)
  (benchmarks (ofExtractor first ms ++ ofExtractor second ms)) = .ok pairs)

include h

theorem matched_of_mem {p : Pair Rat × Ratios Rat} (hp : p ∈ pairs) :
    Matched ms first second p := by
  obtain ⟨hfirst, hsecond, hname, hlisted⟩ := results_of_mem_comparePairs h hp
  obtain ⟨-, -, -, hr⟩ := exists_name_of_mem_comparePairs h hp
  obtain ⟨hpos, hratios⟩ := ratiosOf_eq_ok_iff.mp hr
  have hcost : ((0 : Nat) : Rat) < p.1.2.dag := (hpos .dag).1
  exact ⟨hfirst, hsecond, hname, hlisted, by exact_mod_cast hcost, by rw [hratios]⟩

theorem map_name_first :
    (pairs.map (·.1.1)).map (·.name) =
      benchmarks (ofExtractor first ms ++ ofExtractor second ms) := by
  rw [← map_name_of_comparePairs h, List.map_map]
  exact List.map_congr_left fun p hp => (matched_of_mem h hp).listed.symm

theorem map_name_second :
    (pairs.map (·.1.2)).map (·.name) =
      benchmarks (ofExtractor first ms ++ ofExtractor second ms) := by
  rw [← map_name_first h, List.map_map, List.map_map]
  exact List.map_congr_left fun p hp => (matched_of_mem h hp).name

/-- A comparison looks at each result of its first extractor once. -/
theorem perm_first (hnodup : ((ofExtractor first ms).map (·.name)).Nodup) :
    (pairs.map (·.1.1)).Perm (ofExtractor first ms) := by
  refine Measurement.perm_of_names ?_ hnodup ?_ fun m hm => ?_
  · rw [map_name_first h]
    exact Ascending.nodup_names _
  · exact List.forall_mem_map.mpr fun p hp => (matched_of_mem h hp).first
  · rw [map_name_first h]
    exact Measurement.mem_benchmarks_iff.mpr ⟨m, List.mem_append_left _ hm, rfl⟩

/-- A comparison looks at each result of its second extractor once. -/
theorem perm_second (hnodup : ((ofExtractor second ms).map (·.name)).Nodup) :
    (pairs.map (·.1.2)).Perm (ofExtractor second ms) := by
  refine Measurement.perm_of_names ?_ hnodup ?_ fun m hm => ?_
  · rw [map_name_second h]
    exact Ascending.nodup_names _
  · exact List.forall_mem_map.mpr fun p hp => (matched_of_mem h hp).second
  · rw [map_name_second h]
    exact Measurement.mem_benchmarks_iff.mpr ⟨m, List.mem_append_right _ hm, rfl⟩

end Pairs

end ExtractionBench.Comparison
