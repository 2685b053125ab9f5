import Mathlib.Tactic
import ExtractionBench.Comparison.Basic
import ExtractionBench.Proofs.Exact
import ExtractionBench.Proofs.Measurement.Index
import ExtractionBench.Proofs.Statistics.Existence
import ExtractionBench.Proofs.Traversal

/-!
# The steps of a comparison

When each step of a comparison of two extractors succeeds, and what is told when it does not: the
two results for a benchmark, the ratios of their costs, and the summary of all ratios.
-/

namespace ExtractionBench.Comparison

theorem forall_costKind_iff {p : CostKind → Prop} : (∀ kind, p kind) ↔ p .tree ∧ p .dag := by
  constructor
  · exact fun h => ⟨h .tree, h .dag⟩
  · rintro ⟨htree, hdag⟩ (_ | _)
    · exact htree
    · exact hdag

variable {α : Type} {first second : String} {pair : Pair α}
  {ofFirst ofSecond : List (Measurement α)}
  {name : String}

theorem pairFor_eq_ok_iff :
    pairFor first second ofFirst ofSecond name = .ok pair ↔
      Measurement.find? name ofFirst = some pair.1 ∧
      Measurement.find? name ofSecond = some pair.2 := by
  obtain ⟨a, b⟩ := pair
  unfold pairFor
  cases h1 : Measurement.find? name ofFirst with
  | none => simp
  | some a' =>
    cases h2 : Measurement.find? name ofSecond with
    | none => simp
    | some b' => simp

/-- The extractor that is told of lacks the benchmark. -/
theorem pairFor_eq_error {fault : Fault α}
    (h : pairFor first second ofFirst ofSecond name = .error fault) :
    (fault = .missing name first second ∧ Measurement.find? name ofFirst = none) ∨
      (fault = .missing name second first ∧ Measurement.find? name ofSecond = none) := by
  unfold pairFor at h
  cases h1 : Measurement.find? name ofFirst with
  | none =>
    rw [h1] at h
    cases h
    exact .inl ⟨rfl, rfl⟩
  | some a =>
    cases h2 : Measurement.find? name ofSecond with
    | none =>
      rw [h1, h2] at h
      cases h
      exact .inr ⟨rfl, rfl⟩
    | some b =>
      rw [h1, h2] at h
      cases h

section Costs

variable [Scalar α] {kind : CostKind}

/-- A cost of both results is positive. -/
def BothPositive (pair : Pair α) (kind : CostKind) : Prop :=
  ((0 : Nat) : α) < pair.2.cost kind ∧ ((0 : Nat) : α) < pair.1.cost kind

/-- The ratio of two costs is their quotient, if both are positive. -/
theorem costRatio_eq_ok_iff {q : α} :
    costRatio first second kind pair = .ok q ↔
      BothPositive pair kind ∧ q = pair.1.cost kind / pair.2.cost kind := by
  unfold costRatio BothPositive
  by_cases h2 : ((0 : Nat) : α) < pair.2.cost kind
  · by_cases h1 : ((0 : Nat) : α) < pair.1.cost kind
    · simp [h1, h2, eq_comm]
    · simp [h1, h2]
  · simp [h2]

/-- This is the fault of a cost of one of the two results that is not positive. -/
def IsZeroCost (first second : String) (pair : Pair α) (fault : Fault α) : Prop :=
  ∃ kind, (fault = .zeroCost pair.1.name second kind ∧ ¬ ((0 : Nat) : α) < pair.2.cost kind) ∨
    (fault = .zeroCost pair.1.name first kind ∧ ¬ ((0 : Nat) : α) < pair.1.cost kind)

/-- A ratio that is refused tells of a cost that is not positive. -/
theorem costRatio_eq_error {fault : Fault α} (h : costRatio first second kind pair = .error fault) :
    IsZeroCost first second pair fault := by
  simp only [costRatio] at h
  split at h
  · rename_i h2
    cases h
    exact ⟨kind, .inl ⟨rfl, h2⟩⟩
  · split at h
    · rename_i h1
      cases h
      exact ⟨kind, .inr ⟨rfl, h1⟩⟩
    · cases h

/-- The ratios of a benchmark are those of its costs, and all of these must be positive. -/
theorem ratiosOf_eq_ok_iff {r : Ratios α} :
    ratiosOf first second pair = .ok r ↔
      (∀ kind, BothPositive pair kind) ∧
        r = ⟨pair.1.name, pair.1.tree / pair.2.tree, pair.1.dag / pair.2.dag, timeRatio pair⟩ := by
  unfold ratiosOf
  rw [bind_eq_ok_iff, forall_costKind_iff]
  constructor
  · rintro ⟨tree, htree, h⟩
    obtain ⟨dag, hdag, h⟩ := bind_eq_ok_iff.mp h
    obtain ⟨ht, rfl⟩ := costRatio_eq_ok_iff.mp htree
    obtain ⟨hd, rfl⟩ := costRatio_eq_ok_iff.mp hdag
    cases h
    exact ⟨⟨ht, hd⟩, rfl⟩
  · rintro ⟨⟨ht, hd⟩, rfl⟩
    exact ⟨_, costRatio_eq_ok_iff.mpr ⟨ht, rfl⟩,
      bind_eq_ok_iff.mpr ⟨_, costRatio_eq_ok_iff.mpr ⟨hd, rfl⟩, rfl⟩⟩

theorem ratiosOf_eq_error {fault : Fault α} (h : ratiosOf first second pair = .error fault) :
    IsZeroCost first second pair fault := by
  unfold ratiosOf at h
  rcases bind_eq_error_iff.mp h with htree | ⟨_, _, h⟩
  · exact costRatio_eq_error htree
  · rcases bind_eq_error_iff.mp h with hdag | ⟨_, _, h⟩
    · exact costRatio_eq_error hdag
    · cases h

/-- Benchmarks can be compared if both extractors have a result for each of them and all costs are
positive. -/
theorem exists_comparePairs_iff {names : List String} :
    (∃ pairs, comparePairs first second ofFirst ofSecond names = .ok pairs) ↔
      ∀ name ∈ names, ∃ pair : Pair α, Measurement.find? name ofFirst = some pair.1 ∧
        Measurement.find? name ofSecond = some pair.2 ∧ ∀ kind, BothPositive pair kind := by
  unfold comparePairs
  rw [exists_mapM_eq_ok_iff]
  refine forall₂_congr fun name _ => ?_
  constructor
  · rintro ⟨_, h⟩
    obtain ⟨pair, hpair, h⟩ := bind_eq_ok_iff.mp h
    obtain ⟨r, hr, -⟩ := bind_eq_ok_iff.mp h
    obtain ⟨h1, h2⟩ := pairFor_eq_ok_iff.mp hpair
    exact ⟨pair, h1, h2, (ratiosOf_eq_ok_iff.mp hr).1⟩
  · rintro ⟨pair, h1, h2, hpos⟩
    exact ⟨_, bind_eq_ok_iff.mpr ⟨pair, pairFor_eq_ok_iff.mpr ⟨h1, h2⟩,
      bind_eq_ok_iff.mpr ⟨_, ratiosOf_eq_ok_iff.mpr ⟨hpos, rfl⟩, rfl⟩⟩⟩

theorem length_of_comparePairs {names : List String} {pairs : List (Pair α × Ratios α)}
    (h : comparePairs first second ofFirst ofSecond names = .ok pairs) :
    pairs.length = names.length :=
  (mapM_eq_ok_iff.mp h).length_eq.symm

/-- What is compared are the results for a benchmark, with their ratios. -/
theorem exists_name_of_mem_comparePairs {names : List String} {pairs : List (Pair α × Ratios α)}
    (h : comparePairs first second ofFirst ofSecond names = .ok pairs) {p : Pair α × Ratios α}
    (hp : p ∈ pairs) :
    ∃ name ∈ names, pairFor first second ofFirst ofSecond name = .ok p.1 ∧
      ratiosOf first second p.1 = .ok p.2 := by
  obtain ⟨name, hname, h⟩ := exists_mem_of_mapM h hp
  obtain ⟨pair, hpair, h⟩ := bind_eq_ok_iff.mp h
  obtain ⟨r, hr, h⟩ := bind_eq_ok_iff.mp h
  cases h
  exact ⟨name, hname, hpair, hr⟩

/-- The ratios are those of the benchmarks, in their order. -/
theorem map_name_of_comparePairs {names : List String} {pairs : List (Pair α × Ratios α)}
    (h : comparePairs first second ofFirst ofSecond names = .ok pairs) :
    pairs.map (·.2.name) = names := by
  refine map_eq_of_mapM h fun name _ p hp => ?_
  obtain ⟨pair, hpair, hp⟩ := bind_eq_ok_iff.mp hp
  obtain ⟨r, hr, hp⟩ := bind_eq_ok_iff.mp hp
  cases hp
  obtain ⟨hfind, -⟩ := pairFor_eq_ok_iff.mp hpair
  obtain ⟨-, rfl⟩ := ratiosOf_eq_ok_iff.mp hr
  exact (Measurement.mem_of_find? hfind).2

/-- What is compared are two results for one benchmark, and their ratios are listed under its
name. -/
theorem results_of_mem_comparePairs {names : List String} {pairs : List (Pair α × Ratios α)}
    (h : comparePairs first second ofFirst ofSecond names = .ok pairs) {p : Pair α × Ratios α}
    (hp : p ∈ pairs) :
    p.1.1 ∈ ofFirst ∧ p.1.2 ∈ ofSecond ∧ p.1.2.name = p.1.1.name ∧ p.2.name = p.1.1.name := by
  obtain ⟨name, -, hpair, hr⟩ := exists_name_of_mem_comparePairs h hp
  obtain ⟨hfirst, hsecond⟩ := pairFor_eq_ok_iff.mp hpair
  obtain ⟨hmem1, hname1⟩ := Measurement.mem_of_find? hfirst
  obtain ⟨hmem2, hname2⟩ := Measurement.mem_of_find? hsecond
  obtain ⟨-, hratios⟩ := ratiosOf_eq_ok_iff.mp hr
  exact ⟨hmem1, hmem2, hname2.trans hname1.symm, by rw [hratios]⟩

/-- A comparison is refused with the fault of one of the benchmarks. -/
theorem comparePairs_eq_error {names : List String} {fault : Fault α}
    (h : comparePairs first second ofFirst ofSecond names = .error fault) :
    ∃ name ∈ names, pairFor first second ofFirst ofSecond name = .error fault ∨
      ∃ pair, pairFor first second ofFirst ofSecond name = .ok pair ∧
        IsZeroCost first second pair fault := by
  obtain ⟨name, hname, h⟩ := exists_error_of_mapM h
  refine ⟨name, hname, ?_⟩
  rcases bind_eq_error_iff.mp h with hpair | ⟨pair, hpair, h⟩
  · exact .inl hpair
  · rcases bind_eq_error_iff.mp h with hr | ⟨_, _, h⟩
    · exact .inr ⟨pair, hpair, ratiosOf_eq_error hr⟩
    · cases h

end Costs

/-! ## The summary -/

section Contents

open Statistics

variable [Scalar α]

/-- The first and the last of the five numbers are the minimum and the maximum. -/
theorem ends_of_fiveNumber {method : QuantileMethod} {xs : List α} {s : FiveNumber α}
    (h : FiveNumber.of method xs = .ok s) :
    s.min = Scalar.minimum xs ∧ s.max = Scalar.maximum xs := by
  unfold FiveNumber.of at h
  split at h
  · cases h
    exact ⟨rfl, rfl⟩
  · cases h
  · cases h

/-- What a summary holds, apart from its means. -/
structure Summary.Of (config : RatioConfig) (first second : String)
    (pairs : List (Pair α × Ratios α)) (s : Summary α) : Prop where
  first : s.first = first
  second : s.second = second
  /-- The ratios of the benchmarks, in order. -/
  ratios : s.ratios = pairs.map (·.2)
  /-- The differing costs of the benchmarks, in order. -/
  mismatches : s.mismatches = pairs.flatMap fun p => mismatchesOf config.treeCosts p.1
  /-- The first extractor's runtimes, added up in the order of the benchmarks. -/
  firstMicros : s.firstMicros = (pairs.map (·.1.1.micros)).foldl (· + ·) ((0 : Nat) : α)
  /-- The second extractor's runtimes, likewise. -/
  secondMicros : s.secondMicros = (pairs.map (·.1.2.micros)).foldl (· + ·) ((0 : Nat) : α)
  /-- The five numbers of the tree cost ratios. -/
  tree : FiveNumber.of config.quantileMethod (s.ratios.map (·.tree)) = .ok s.tree
  /-- The five numbers of the dag cost ratios. -/
  dag : FiveNumber.of config.quantileMethod (s.ratios.map (·.dag)) = .ok s.dag
  /-- The five numbers of the runtime ratios. -/
  micros : FiveNumber.of config.quantileMethod (s.ratios.map (·.micros)) = .ok s.micros

theorem summary_of_ofPairs [Elementary α] {config : RatioConfig} {pairs : List (Pair α × Ratios α)}
    {s : Summary α} (h : Summary.ofPairs config first second pairs = .ok s) :
    Summary.Of config first second pairs s := by
  unfold Summary.ofPairs at h
  by_cases hempty : pairs.isEmpty = true
  · rw [if_pos hempty] at h
    cases h
  · rw [if_neg hempty] at h
    simp only [bind_eq_ok_iff] at h
    obtain ⟨_, -, _, -, _, -, _, htree, _, hdag, _, hmicros, h⟩ := h
    cases h
    exact ⟨rfl, rfl, rfl, rfl, rfl, rfl, htree, hdag, hmicros⟩

/-- A summary is refused for the numbers that it is made of, never for the results behind them. -/
theorem ofPairs_eq_error [Elementary α] {config : RatioConfig} {pairs : List (Pair α × Ratios α)}
    {fault : Fault α} (h : Summary.ofPairs config first second pairs = .error fault) :
    (∃ shortage, fault = .noData shortage) ∨ ∃ x, fault = .nonPositive x := by
  unfold Summary.ofPairs at h
  by_cases hempty : pairs.isEmpty = true
  · rw [if_pos hempty] at h
    cases h
    exact .inl ⟨_, rfl⟩
  rw [if_neg hempty] at h
  rcases bind_eq_error_iff.mp h with h | ⟨_, -, h⟩
  · exact geometricMean_eq_error h
  rcases bind_eq_error_iff.mp h with h | ⟨_, -, h⟩
  · exact geometricMean_eq_error h
  rcases bind_eq_error_iff.mp h with h | ⟨_, -, h⟩
  · exact geometricMean_eq_error h
  rcases bind_eq_error_iff.mp h with h | ⟨_, -, h⟩
  · exact .inl (fiveNumber_eq_error h)
  rcases bind_eq_error_iff.mp h with h | ⟨_, -, h⟩
  · exact .inl (fiveNumber_eq_error h)
  rcases bind_eq_error_iff.mp h with h | ⟨_, -, h⟩
  · exact .inl (fiveNumber_eq_error h)
  cases h

end Contents

section Exact

variable {pair : Pair Rat} {r : Ratios Rat}

theorem timeRatio_pos (pair : Pair Rat) : 0 < timeRatio pair := by
  have h : timeRatio pair =
      max pair.1.micros ((1 : Nat) : Rat) / max pair.2.micros ((1 : Nat) : Rat) := by
    rw [← Scalar.greatest_rat, ← Scalar.greatest_rat]
    rfl
  rw [h]
  exact div_pos (lt_max_of_lt_right (by norm_num)) (lt_max_of_lt_right (by norm_num))

/-- All ratios of a benchmark are positive. -/
theorem ratios_pos (h : ratiosOf first second pair = .ok r) :
    0 < r.tree ∧ 0 < r.dag ∧ 0 < r.micros := by
  obtain ⟨hpos, rfl⟩ := ratiosOf_eq_ok_iff.mp h
  obtain ⟨ht2, ht1⟩ := hpos .tree
  obtain ⟨hd2, hd1⟩ := hpos .dag
  have ht : 0 < pair.1.tree / pair.2.tree := by
    refine div_pos ?_ ?_
    · exact_mod_cast ht1
    · exact_mod_cast ht2
  have hd : 0 < pair.1.dag / pair.2.dag := by
    refine div_pos ?_ ?_
    · exact_mod_cast hd1
    · exact_mod_cast hd2
  exact ⟨ht, hd, timeRatio_pos pair⟩

/-- There is a summary of any positive ratios, and it is of the two extractors. -/
theorem exists_ofPairs [Elementary Rat] {config : RatioConfig}
    {pairs : List (Pair Rat × Ratios Rat)} (hne : pairs ≠ [])
    (hpos : ∀ p ∈ pairs, 0 < p.2.tree ∧ 0 < p.2.dag ∧ 0 < p.2.micros) :
    ∃ s, Summary.ofPairs config first second pairs = .ok s ∧ s.first = first ∧
      s.second = second := by
  have hcolumn : ∀ f : Ratios Rat → Rat, (pairs.map (·.2)).map f ≠ [] := fun f => by simpa using hne
  have hmean : ∀ f : Ratios Rat → Rat, (∀ p ∈ pairs, 0 < f p.2) →
      ∃ g, Statistics.geometricMean ((pairs.map (·.2)).map f) = .ok g := by
    intro f hf
    refine Statistics.exists_geometricMean (hcolumn f) fun x hx => ?_
    rw [List.map_map] at hx
    obtain ⟨p, hp, rfl⟩ := List.mem_map.mp hx
    exact hf p hp
  obtain ⟨meanTree, htree⟩ := hmean (·.tree) fun p hp => (hpos p hp).1
  obtain ⟨meanDag, hdag⟩ := hmean (·.dag) fun p hp => (hpos p hp).2.1
  obtain ⟨meanMicros, hmicros⟩ := hmean (·.micros) fun p hp => (hpos p hp).2.2
  have hfive : ∀ f : Ratios Rat → Rat,
      ∃ q, Statistics.FiveNumber.of config.quantileMethod ((pairs.map (·.2)).map f) = .ok q :=
    fun f => Statistics.exists_fiveNumber (hcolumn f)
  obtain ⟨tree, htree5⟩ := hfive (·.tree)
  obtain ⟨dag, hdag5⟩ := hfive (·.dag)
  obtain ⟨micros, hmicros5⟩ := hfive (·.micros)
  have hempty : pairs.isEmpty = false := by simpa using hne
  unfold Summary.ofPairs
  simp only [hempty, htree, hdag, hmicros, htree5, hdag5, hmicros5]
  exact ⟨_, rfl, rfl, rfl⟩

end Exact

end ExtractionBench.Comparison
