import Mathlib.Tactic
import ExtractionBench.Proofs.Benchset.Tables
import ExtractionBench.Proofs.Comparison.Matching

/-!
# Ratios of sums and ratios of benchmarks

An extractor is set against a baseline in two ways: by suite, dividing its dag costs of all
benchmarks in the suite by those of the baseline, and by benchmark, in a comparison. The quotient of
the sums is a mediant of the quotients of the benchmarks, so it lies between the least and the
greatest of them.
-/

namespace ExtractionBench.Benchset

open Comparison
open Measurement (Covers ofExtractor benchmarks)

/-- The quotient of two sums lies between bounds of the quotients of their terms. -/
theorem sum_div_sum_between {β : Type} {xs : List β} {f g : β → Rat} {lo hi : Rat} (hne : xs ≠ [])
    (hg : ∀ x ∈ xs, 0 < g x) (hbounds : ∀ x ∈ xs, lo ≤ f x / g x ∧ f x / g x ≤ hi) :
    lo ≤ (xs.map f).sum / (xs.map g).sum ∧ (xs.map f).sum / (xs.map g).sum ≤ hi := by
  have hpos : 0 < (xs.map g).sum := by
    refine List.sum_pos _ (List.forall_mem_map.mpr hg) ?_
    simpa using hne
  constructor
  · rw [le_div_iff₀ hpos, ← List.sum_map_mul_left]
    exact List.sum_le_sum fun x hx => (le_div_iff₀ (hg x hx)).mp (hbounds x hx).1
  · rw [div_le_iff₀ hpos, ← List.sum_map_mul_left]
    exact List.sum_le_sum fun x hx => (div_le_iff₀ (hg x hx)).mp (hbounds x hx).2

variable {ms : List (Measurement Rat)} {e base suite : String}
  {pairs : List (Pair Rat × Ratios Rat)}

/-- The pairs of a comparison for the benchmarks of a suite. -/
def pairsIn (suite : String) (pairs : List (Pair Rat × Ratios Rat)) :
    List (Pair Rat × Ratios Rat) :=
  pairs.filter fun p => suiteOf p.1.1 == suite

section Compared

variable (h : comparePairs e base (ofExtractor e ms) (ofExtractor base ms)
  (benchmarks (ofExtractor e ms ++ ofExtractor base ms)) = .ok pairs)

include h

/-- Without repetitions the results of the first extractor for a suite are those of its pairs. -/
theorem inSuite_perm_first (hnodup : ((ofExtractor e ms).map (·.name)).Nodup) :
    ((pairsIn suite pairs).map (·.1.1)).Perm (inSuite suite e ms) := by
  have hperm := (perm_first h hnodup).filter fun m => suiteOf m == suite
  rwa [List.filter_map] at hperm

/-- Both results of a pair are for one benchmark, so they count under one suite. -/
theorem inSuite_perm_second (hnodup : ((ofExtractor base ms).map (·.name)).Nodup) :
    ((pairsIn suite pairs).map (·.1.2)).Perm (inSuite suite base ms) := by
  have hperm := (perm_second h hnodup).filter fun m => suiteOf m == suite
  rw [List.filter_map] at hperm
  have hsame : pairsIn suite pairs = pairs.filter ((fun m => suiteOf m == suite) ∘ (·.1.2)) := by
    refine List.filter_congr fun p hp => ?_
    rw [Function.comp_apply, suiteOf_congr (matched_of_mem h hp).name]
  rwa [hsame]

/-- The total of the first extractor is the sum over the pairs of the suite. -/
theorem dagTotal_first (hnodup : ((ofExtractor e ms).map (·.name)).Nodup) :
    dagTotal suite e ms = ((pairsIn suite pairs).map (·.1.1.dag)).sum := by
  rw [dagTotal, ← ((inSuite_perm_first h hnodup).map _).sum_eq, List.map_map]
  rfl

theorem dagTotal_second (hnodup : ((ofExtractor base ms).map (·.name)).Nodup) :
    dagTotal suite base ms = ((pairsIn suite pairs).map (·.1.2.dag)).sum := by
  rw [dagTotal, ← ((inSuite_perm_second h hnodup).map _).sum_eq, List.map_map]
  rfl

theorem pairsIn_ne_nil (hnodup : ((ofExtractor e ms).map (·.name)).Nodup)
    (hne : inSuite suite e ms ≠ []) :
    pairsIn suite pairs ≠ [] := by
  intro hnil
  have hperm : ((pairsIn suite pairs).map (·.1.1)).Perm (inSuite suite e ms) :=
    inSuite_perm_first h hnodup
  rw [hnil] at hperm
  exact hne hperm.nil_eq.symm

end Compared

/-- The ends of a summary are bounds of all its dag cost ratios. -/
theorem dag_between {config : RatioConfig} {s : Summary Rat} (hs : Summary.Of config e base pairs s)
    {p : Pair Rat × Ratios Rat} (hp : p ∈ pairs) : s.dag.min ≤ p.2.dag ∧ p.2.dag ≤ s.dag.max := by
  have hmem : p.2.dag ∈ s.ratios.map (·.dag) := by
    rw [hs.ratios, List.map_map]
    exact List.mem_map_of_mem hp
  obtain ⟨hmin, hmax⟩ := ends_of_fiveNumber hs.dag
  rw [hmin, hmax]
  have hne := List.ne_nil_of_mem hmem
  exact ⟨(Scalar.isLeast_minimum hne).2 hmem, (Scalar.isGreatest_maximum hne).2 hmem⟩

/-- The quotient of two totals is between the least and the greatest of the ratios. -/
theorem dagTotal_div_between [Elementary Rat] {config : RatioConfig} {s : Summary Rat}
    (hs : summarize config ms e base = .ok s) (hne : inSuite suite e ms ≠ []) :
    s.dag.min ≤ dagTotal suite e ms / dagTotal suite base ms ∧
      dagTotal suite e ms / dagTotal suite base ms ≤ s.dag.max := by
  obtain ⟨he, hbase, pairs, hpairs, hof⟩ := summarize_eq_ok_iff.mp hs
  have hmem : ∀ p ∈ pairsIn suite pairs, p ∈ pairs := fun p hp => (List.mem_filter.mp hp).1
  rw [dagTotal_first hpairs he, dagTotal_second hpairs hbase]
  refine sum_div_sum_between (pairsIn_ne_nil hpairs he hne) (fun p hp => ?_) fun p hp => ?_
  · exact (matched_of_mem hpairs (hmem p hp)).positive
  · rw [← (matched_of_mem hpairs (hmem p hp)).dag]
    exact dag_between (summary_of_ofPairs hof) (hmem p hp)

theorem inSuite_ne_nil_of_covers (hcover : ∀ name, Covers ms e name → Covers ms base name)
    (hne : inSuite suite e ms ≠ []) : inSuite suite base ms ≠ [] := by
  obtain ⟨m, hm, he, hsuite⟩ := inSuite_ne_nil_iff.mp hne
  obtain ⟨m', hm', hbase, hname⟩ := hcover m.name ⟨m, hm, he, rfl⟩
  exact inSuite_ne_nil_iff.mpr ⟨m', hm', hbase, (suiteOf_congr hname).trans hsuite⟩

/-- A suite with results has a positive total if all of its dag costs are. -/
theorem dagTotal_pos (hpos : ∀ m ∈ ms, m.extractor = e → 0 < m.dag)
    (hne : inSuite suite e ms ≠ []) :
    0 < dagTotal suite e ms := by
  refine List.sum_pos _ (List.forall_mem_map.mpr fun m hm => ?_) (by simpa using hne)
  obtain ⟨hmem, he, -⟩ := mem_inSuite.mp hm
  exact hpos m hmem he

/-- The ratios by suite lie inside the range of the ratios by benchmark. If two extractors have one
result each for the same benchmarks, at positive costs, then the table of ratios has a cell for each
suite with results, and the value in it lies between the least and the greatest dag cost ratio of
their comparison. -/
theorem dagRatios_within_summary [Elementary Rat] (config : RatioConfig)
    {ms : List (Measurement Rat)} {e base : String} (he : ((ofExtractor e ms).map (·.name)).Nodup)
    (hbase : ((ofExtractor base ms).map (·.name)).Nodup)
    (hcover : ∀ name, Covers ms e name ↔ Covers ms base name)
    (hpos : ∀ m ∈ ms, m.extractor = e ∨ m.extractor = base → 0 < m.tree ∧ 0 < m.dag)
    (suite : String) :
    ((∃ q, cell? suite e (dagRatios ms base [e]) = some q) ↔
      ∃ m ∈ ms, m.extractor = e ∧ suiteOf m = suite) ∧
      ∀ q, cell? suite e (dagRatios ms base [e]) = some q →
        ∃ s, summarize config ms e base = .ok s ∧ s.dag.min ≤ q ∧ q ≤ s.dag.max := by
  simp only [cell?_dagRatios_rat_eq_some_iff, ← inSuite_ne_nil_iff]
  constructor
  · constructor
    · rintro ⟨_, -, hne, -⟩
      exact hne
    · intro hne
      have htotal : 0 < dagTotal suite base ms :=
        dagTotal_pos (fun m hm hextractor => (hpos m hm (.inr hextractor)).2)
          (inSuite_ne_nil_of_covers (fun name => (hcover name).mp) hne)
      exact ⟨_, List.mem_singleton_self e, hne, htotal.ne', rfl⟩
  · rintro _ ⟨-, hne, -, rfl⟩
    obtain ⟨m, hm, hextractor, -⟩ := inSuite_ne_nil_iff.mp hne
    have hcosts : ∀ m ∈ ms, m.extractor = e ∨ m.extractor = base →
        ∀ kind, ((0 : Nat) : Rat) < m.cost kind := by
      intro m hm hof
      exact forall_costKind_iff.mpr (hpos m hm hof)
    obtain ⟨s, hs⟩ : ∃ s, summarize config ms e base = .ok s :=
      (exists_summarize_iff (Measurement.mem_extractors_iff.mpr ⟨m, hm, hextractor⟩)).mpr
        ⟨⟨he, hbase⟩, hcover, hcosts⟩
    exact ⟨s, hs, dagTotal_div_between hs hne⟩

/-- Two extractors on two suites: in the first suite one of them is worse on one benchmark and
better on the other. -/
def twoSuites : List (Measurement Rat) :=
  [⟨"data/egg/a.json", "ilp", 1, 4, 5, ⟨""⟩, ⟨""⟩⟩,
    ⟨"data/egg/a.json", "beam", 1, 6, 5, ⟨""⟩, ⟨""⟩⟩,
    ⟨"data/egg/b.json", "beam", 1, 2, 5, ⟨""⟩, ⟨""⟩⟩,
      ⟨"data/egg/b.json", "ilp", 1, 8, 5, ⟨""⟩, ⟨""⟩⟩,
    ⟨"data/tensat/c.json", "ilp", 1, 3, 5, ⟨""⟩, ⟨""⟩⟩,
      ⟨"data/tensat/c.json", "beam", 1, 3, 5, ⟨""⟩, ⟨""⟩⟩]

theorem twoSuites_within :
    let _ : Elementary Rat := ⟨id, id, id⟩
    cell? "egg" "beam" (dagRatios twoSuites "ilp" ["beam"]) = some (2 / 3) ∧
      ∃ s, summarize {} twoSuites "beam" "ilp" = .ok s ∧ s.dag.min ≤ 2 / 3 ∧ 2 / 3 ≤ s.dag.max := by
  intro _
  have hcover : ∀ name, Covers twoSuites "beam" name ↔ Covers twoSuites "ilp" name := by
    simp [Covers, twoSuites]
  have hcell : cell? "egg" "beam" (dagRatios twoSuites "ilp" ["beam"]) = some (2 / 3) := by
    decide +kernel
  obtain ⟨-, hwithin⟩ :=
    dagRatios_within_summary {} (by decide +kernel) (by decide +kernel) hcover
      (by decide +kernel) "egg"
  exact ⟨hcell, hwithin _ hcell⟩

end ExtractionBench.Benchset
