import Mathlib.Tactic
import ExtractionBench.Proofs.Comparison.AllPairs

/-!
# Comparing the other way round, and along a chain

The comparison of two extractors and the one with their places exchanged run side by side: they find
the same benchmarks, their ratios are reciprocal, and where one stops at a gap or a cost that is not
positive so does the other. Two comparisons with a common extractor in the middle give the
comparison of the outer two, with the products of the ratios.
-/

namespace ExtractionBench.Comparison

open Measurement (ofExtractor benchmarks)

/-! ## Faults -/

section Faults

variable {α : Type}

/-- Two faults tell of the same flaw. For a gap they are the same; of a cost that is not positive
the benchmark and the cost are the same, while the two extractors may both have such a cost. -/
inductive SameFlaw : Fault α → Fault α → Prop where
  | repeated {b b' e e' : String} {f f' s s' : Path} :
      SameFlaw (.repeated b e f s) (.repeated b' e' f' s')
  | missing {b e o : String} : SameFlaw (.missing b e o) (.missing b e o)
  | zeroCost {b e e' : String} {kind : CostKind} :
      SameFlaw (.zeroCost b e kind) (.zeroCost b e' kind)
  | noData {s s' : Shortage} : SameFlaw (.noData s) (.noData s')

end Faults

/-! ## One benchmark, both ways -/

section Benchmark

variable {α : Type} {first second : String} {pair : Pair α}
  {ofFirst ofSecond : List (Measurement α)}
  {name : String}

/-- A differing cost, told the other way round. -/
def Mismatch.swap (m : Mismatch α) : Mismatch α := ⟨m.name, m.kind, m.second, m.first⟩

/-- The ratios, taken the other way round. -/
def Ratios.inverse (r : Ratios Rat) : Ratios Rat := ⟨r.name, r.tree⁻¹, r.dag⁻¹, r.micros⁻¹⟩

/-- Two results are looked up alike in both directions. -/
theorem alike_pairFor
    (h : Measurement.find? name ofFirst ≠ none ∨ Measurement.find? name ofSecond ≠ none) :
    Alike SameFlaw (fun p q : Pair α => (p.1.name = name ∧ p.2.name = name) ∧ q = p.swap)
      (pairFor first second ofFirst ofSecond name)
      (pairFor second first ofSecond ofFirst name) := by
  unfold pairFor
  cases h1 : Measurement.find? name ofFirst with
  | none =>
    cases h2 : Measurement.find? name ofSecond with
    | none => exact absurd h (by simp [h1, h2])
    | some b => exact .error .missing
  | some a =>
    cases h2 : Measurement.find? name ofSecond with
    | none => exact .error .missing
    | some b => exact .ok ⟨⟨(Measurement.mem_of_find? h1).2, (Measurement.mem_of_find? h2).2⟩, rfl⟩

theorem find?_ne_none_of_mem_benchmarks (h : name ∈ benchmarks (ofFirst ++ ofSecond)) :
    Measurement.find? name ofFirst ≠ none ∨ Measurement.find? name ofSecond ≠ none := by
  obtain ⟨m, hm, hname⟩ := Measurement.mem_benchmarks_iff.mp h
  rcases List.mem_append.mp hm with hm | hm
  · exact .inl fun hnone => Measurement.find?_eq_none_iff.mp hnone m hm hname
  · exact .inr fun hnone => Measurement.find?_eq_none_iff.mp hnone m hm hname

theorem benchmarks_append_comm (xs ys : List (Measurement α)) :
    benchmarks (xs ++ ys) = benchmarks (ys ++ xs) := by
  refine Ascending.names_congr fun name => ?_
  simp [or_comm]

end Benchmark

section Exact

variable {first second name : String} {pair : Pair Rat} {ofFirst ofSecond : List (Measurement Rat)}

/-- Differing costs are those of the other direction, exchanged. -/
theorem mismatchesOf_swap {policy : TreeCostPolicy} (hname : pair.1.name = pair.2.name) :
    mismatchesOf policy pair.swap = (mismatchesOf policy pair).map Mismatch.swap := by
  have hdiffering : ∀ kind, (if pair.2.cost kind != pair.1.cost kind then
      [(⟨pair.2.name, kind, pair.2.cost kind, pair.1.cost kind⟩ : Mismatch Rat)] else []) =
        (if pair.1.cost kind != pair.2.cost kind then
          [(⟨pair.1.name, kind, pair.1.cost kind, pair.2.cost kind⟩ : Mismatch Rat)] else []).map
            Mismatch.swap := by
    intro kind
    rw [bne_comm, hname]
    split_ifs <;> rfl
  simp only [mismatchesOf, Prod.fst_swap, Prod.snd_swap, List.map_append, hdiffering]
  split_ifs <;> rfl

/-- The ratio of two costs is reciprocal to that in the other direction, or both are refused. -/
theorem alike_costRatio {kind : CostKind} (hname : pair.1.name = pair.2.name) :
    Alike SameFlaw (fun q q' : Rat => q' = q⁻¹) (costRatio first second kind pair)
      (costRatio second first kind pair.swap) := by
  simp only [costRatio, Prod.fst_swap, Prod.snd_swap, ← hname]
  by_cases h1 : ((0 : Nat) : Rat) < pair.1.cost kind
  · by_cases h2 : ((0 : Nat) : Rat) < pair.2.cost kind
    · simp only [h1, h2, not_true_eq_false, if_false]
      exact .ok (inv_div _ _).symm
    · simp only [h1, h2, not_true_eq_false, not_false_eq_true, if_true, if_false]
      exact .error .zeroCost
  · by_cases h2 : ((0 : Nat) : Rat) < pair.2.cost kind
    · simp only [h1, h2, not_true_eq_false, not_false_eq_true, if_true, if_false]
      exact .error .zeroCost
    · simp only [h1, h2, not_false_eq_true, if_true]
      exact .error .zeroCost

theorem timeRatio_swap (pair : Pair Rat) : timeRatio pair.swap = (timeRatio pair)⁻¹ :=
  (inv_div _ _).symm

/-- The ratios of a benchmark are reciprocal to those in the other direction, or both are
refused. -/
theorem alike_ratiosOf (hname : pair.1.name = pair.2.name) :
    Alike SameFlaw (fun r r' => r' = r.inverse) (ratiosOf first second pair)
      (ratiosOf second first pair.swap) := by
  unfold ratiosOf
  refine Alike.bind (alike_costRatio hname) fun tree tree' htree => ?_
  refine Alike.bind (alike_costRatio hname) fun dag dag' hdag => ?_
  refine .ok ?_
  rw [htree, hdag, timeRatio_swap, Prod.fst_swap, ← hname]
  rfl

/-- What was compared for a benchmark, the other way round. -/
def exchange (p : Pair Rat × Ratios Rat) : Pair Rat × Ratios Rat := (p.1.swap, p.2.inverse)

/-- These are the results for one benchmark, with positive ratios. -/
structure Compared (p : Pair Rat × Ratios Rat) : Prop where
  name : p.1.1.name = p.1.2.name
  tree : 0 < p.2.tree
  dag : 0 < p.2.dag
  micros : 0 < p.2.micros

/-- Benchmarks are compared both ways, or both ways the first that cannot be has the same flaw. -/
theorem alike_comparePairs {names : List String}
    (h : ∀ name ∈ names, Measurement.find? name ofFirst ≠ none ∨
      Measurement.find? name ofSecond ≠ none) :
    Alike SameFlaw (List.Forall₂ fun p q => Compared p ∧ exchange p = q)
      (comparePairs first second ofFirst ofSecond names)
      (comparePairs second first ofSecond ofFirst names) := by
  unfold comparePairs
  refine Alike.mapM fun name hname => ?_
  refine Alike.bind (alike_pairFor (h name hname)) ?_
  rintro pair _ ⟨⟨h1, h2⟩, rfl⟩
  have hpair : pair.1.name = pair.2.name := h1.trans h2.symm
  cases hr : ratiosOf first second pair with
  | error fault =>
    obtain ⟨fault', hr', hflaw⟩ := (alike_ratiosOf hpair).exists_of_error hr
    rw [hr']
    exact .error hflaw
  | ok r =>
    obtain ⟨r', hr'⟩ := (alike_ratiosOf hpair).exists_ok_iff.mp ⟨r, hr⟩
    obtain ⟨htree, hdag, hmicros⟩ := ratios_pos hr
    rw [hr', (alike_ratiosOf hpair).of_ok hr hr']
    exact .ok ⟨⟨hpair, htree, hdag, hmicros⟩, rfl⟩

end Exact

/-! ## Two extractors, both ways -/

section Reversal

open Statistics

variable {config : RatioConfig} {ms : List (Measurement Rat)} {first second : String}

/-- All ratios of a benchmark are reciprocal. -/
structure Ratios.Reciprocal (r r' : Ratios Rat) : Prop where
  name : r'.name = r.name
  tree : r.tree * r'.tree = 1
  dag : r.dag * r'.dag = 1
  micros : r.micros * r'.micros = 1

/-- The least number of each of two samples is the reciprocal of the greatest of the other. -/
def ReciprocalEnds (s s' : FiveNumber Rat) : Prop := s.min * s'.max = 1 ∧ s'.min * s.max = 1

/-- This is the comparison of the same two extractors the other way round. -/
structure Summary.Reversed (s s' : Summary Rat) : Prop where
  first : s'.first = s.second
  second : s'.second = s.first
  ratios : List.Forall₂ Ratios.Reciprocal s.ratios s'.ratios
  mismatches : s'.mismatches = s.mismatches.map Mismatch.swap
  firstMicros : s'.firstMicros = s.secondMicros
  secondMicros : s'.secondMicros = s.firstMicros
  tree : ReciprocalEnds s.tree s'.tree
  dag : ReciprocalEnds s.dag s'.dag
  micros : ReciprocalEnds s.micros s'.micros

/-- The least and the greatest number of a sample are exchanged by taking reciprocals. -/
theorem reciprocalEnds_of_inv {method : QuantileMethod} {xs : List Rat} {s s' : FiveNumber Rat}
    (hne : xs ≠ []) (hpos : ∀ x ∈ xs, 0 < x) (hs : FiveNumber.of method xs = .ok s)
    (hs' : FiveNumber.of method (xs.map (·⁻¹)) = .ok s') : ReciprocalEnds s s' := by
  obtain ⟨hmin, hmax⟩ := ends_of_fiveNumber hs
  obtain ⟨hmin', hmax'⟩ := ends_of_fiveNumber hs'
  have hleast : 0 < s.min := by
    rw [hmin]
    exact hpos _ (Scalar.isLeast_minimum hne).1
  have hgreatest : 0 < s.max := by
    rw [hmax]
    exact hpos _ (Scalar.isGreatest_maximum hne).1
  constructor
  · rw [hmax', Scalar.maximum_inv hne hpos, ← hmin, mul_inv_cancel₀ hleast.ne']
  · rw [hmin', Scalar.minimum_inv hne hpos, ← hmax, inv_mul_cancel₀ hgreatest.ne']

theorem Compared.reciprocal {p : Pair Rat × Ratios Rat} (h : Compared p) :
    Ratios.Reciprocal p.2 (exchange p).2 where
  name := rfl
  tree := mul_inv_cancel₀ h.tree.ne'
  dag := mul_inv_cancel₀ h.dag.ne'
  micros := mul_inv_cancel₀ h.micros.ne'

/-- The summary of exchanged pairs is the reversed summary. -/
theorem reversed_of_compared {pairs : List (Pair Rat × Ratios Rat)} {s s' : Summary Rat}
    (hne : pairs ≠ []) (hpairs : ∀ p ∈ pairs, Compared p)
    (hs : Summary.Of config first second pairs s)
    (hs' : Summary.Of config second first (pairs.map exchange) s') : s.Reversed s' := by
  have hratios : s'.ratios = s.ratios.map Ratios.inverse := by
    rw [hs.ratios, hs'.ratios, List.map_map, List.map_map]
    rfl
  have hcolumn : ∀ (f : Ratios Rat → Rat) {q q' : FiveNumber Rat}, (∀ r, f r.inverse = (f r)⁻¹) →
      (∀ p ∈ pairs, 0 < f p.2) → FiveNumber.of config.quantileMethod (s.ratios.map f) = .ok q →
      FiveNumber.of config.quantileMethod (s'.ratios.map f) = .ok q' → ReciprocalEnds q q' := by
    intro f q q' hinv hpos hq hq'
    have hmap : s'.ratios.map f = (s.ratios.map f).map (·⁻¹) := by
      rw [hratios, List.map_map, List.map_map]
      exact List.map_congr_left fun r _ => hinv r
    refine reciprocalEnds_of_inv ?_ ?_ hq (hmap ▸ hq')
    · simpa [hs.ratios] using hne
    · intro x hx
      rw [hs.ratios, List.map_map] at hx
      obtain ⟨p, hp, rfl⟩ := List.mem_map.mp hx
      exact hpos p hp
  refine
    { first := hs'.first.trans hs.second.symm
      second := hs'.second.trans hs.first.symm
      ratios := ?_
      mismatches := ?_
      firstMicros := ?_
      secondMicros := ?_
      tree := hcolumn (·.tree) (fun _ => rfl) (fun p hp => (hpairs p hp).tree) hs.tree hs'.tree
      dag := hcolumn (·.dag) (fun _ => rfl) (fun p hp => (hpairs p hp).dag) hs.dag hs'.dag
      micros :=
        hcolumn (·.micros) (fun _ => rfl) (fun p hp => (hpairs p hp).micros) hs.micros hs'.micros }
  · rw [hs.ratios, hs'.ratios, List.map_map, List.forall₂_map_left_iff, List.forall₂_map_right_iff,
      List.forall₂_same]
    exact fun p hp => (hpairs p hp).reciprocal
  · rw [hs.mismatches, hs'.mismatches, List.flatMap_map, List.map_flatMap]
    exact List.flatMap_congr fun p hp => mismatchesOf_swap (hpairs p hp).name
  · rw [hs.secondMicros, hs'.firstMicros, List.map_map]
    rfl
  · rw [hs.firstMicros, hs'.secondMicros, List.map_map]
    rfl

theorem alike_ofPairs [Elementary Rat] {pairs : List (Pair Rat × Ratios Rat)}
    (hpairs : ∀ p ∈ pairs, Compared p) :
    Alike SameFlaw Summary.Reversed (Summary.ofPairs config first second pairs)
      (Summary.ofPairs config second first (pairs.map exchange)) := by
  by_cases hne : pairs = []
  · rw [hne]
    exact .error .noData
  · obtain ⟨s, hs, -, -⟩ := @exists_ofPairs first second _ config pairs hne fun p hp =>
      ⟨(hpairs p hp).tree, (hpairs p hp).dag, (hpairs p hp).micros⟩
    obtain ⟨s', hs', -, -⟩ :=
      @exists_ofPairs second first _ config (pairs.map exchange) (by simpa using hne)
      fun q hq => by
        obtain ⟨p, hp, rfl⟩ := List.mem_map.mp hq
        obtain ⟨-, htree, hdag, hmicros⟩ := hpairs p hp
        exact ⟨inv_pos.mpr htree, inv_pos.mpr hdag, inv_pos.mpr hmicros⟩
    rw [hs, hs']
    exact .ok (reversed_of_compared hne hpairs (summary_of_ofPairs hs) (summary_of_ofPairs hs'))

/-- Two extractors can be compared both ways or neither way. The summaries are then the reverse of
each other, and otherwise the same flaw is told of. -/
theorem alike_summarize [Elementary Rat] (config : RatioConfig) (ms : List (Measurement Rat))
    (first second : String) :
    Alike SameFlaw Summary.Reversed (summarize config ms first second)
      (summarize config ms second first) := by
  unfold summarize
  -- A table of results fails for repeated ones only, and it fails before anything is compared.
  cases h1 : Measurement.index ms first with
  | error fault =>
    obtain ⟨m, m', -, -, rfl⟩ := Measurement.exists_repeated_of_index h1
    cases h2 : Measurement.index ms second with
    | error fault' =>
      obtain ⟨m, m', -, -, rfl⟩ := Measurement.exists_repeated_of_index h2
      exact .error .repeated
    | ok _ => exact .error .repeated
  | ok ofFirst =>
    cases h2 : Measurement.index ms second with
    | error fault =>
      obtain ⟨m, m', -, -, rfl⟩ := Measurement.exists_repeated_of_index h2
      exact .error .repeated
    | ok ofSecond =>
      show Alike SameFlaw Summary.Reversed
        (comparePairs first second ofFirst ofSecond (benchmarks (ofFirst ++ ofSecond)) >>=
          Summary.ofPairs config first second)
        (comparePairs second first ofSecond ofFirst (benchmarks (ofSecond ++ ofFirst)) >>=
          Summary.ofPairs config second first)
      rw [benchmarks_append_comm ofSecond ofFirst]
      refine Alike.bind (alike_comparePairs fun name => find?_ne_none_of_mem_benchmarks)
        fun pairs pairs' h => ?_
      obtain ⟨hpairs, hexchange⟩ := (List.forall₂_and_left _ _).mp h
      have heq : pairs.map exchange = pairs' :=
        List.forall₂_eq_eq_eq ▸ List.forall₂_map_left_iff.mpr hexchange
      exact heq ▸ alike_ofPairs hpairs

end Reversal

/-! ## Along a chain -/

section Chain

open Measurement (Covers)

/-- The products of the ratios of a benchmark. -/
def Ratios.times (r r' : Ratios Rat) : Ratios Rat :=
  ⟨r.name, r.tree * r'.tree, r.dag * r'.dag, r.micros * r'.micros⟩

/-- Two comparisons of the same benchmarks multiply to a third one. -/
structure Summary.Chained (s t u : Summary Rat) : Prop where
  names : t.ratios.map (·.name) = s.ratios.map (·.name)
  ratios : u.ratios = List.zipWith Ratios.times s.ratios t.ratios

variable {config : RatioConfig} {ms : List (Measurement Rat)} {first middle last name : String}
  {a b c : Measurement Rat}

theorem timeRatio_mul (a b c : Measurement Rat) :
    timeRatio (a, b) * timeRatio (b, c) = timeRatio (a, c) := by
  have hpos : Scalar.greatest b.micros ((1 : Nat) : Rat) ≠ 0 := by
    rw [Scalar.greatest_rat]
    exact (lt_max_of_lt_right (by norm_num)).ne'
  exact div_mul_div_cancel₀ hpos

/-- The ratios of a benchmark multiply, because the one in the middle has a positive cost. -/
theorem ratiosOf_chain {r r' : Ratios Rat} (h : ratiosOf first middle (a, b) = .ok r)
    (h' : ratiosOf middle last (b, c) = .ok r') :
    ratiosOf first last (a, c) = .ok (r.times r') := by
  obtain ⟨hpos, rfl⟩ := ratiosOf_eq_ok_iff.mp h
  obtain ⟨hpos', rfl⟩ := ratiosOf_eq_ok_iff.mp h'
  have hcost : ∀ kind, b.cost kind ≠ 0 := fun kind => by
    have hb : ((0 : Nat) : Rat) < b.cost kind := (hpos kind).1
    exact_mod_cast hb.ne'
  refine ratiosOf_eq_ok_iff.mpr ⟨fun kind => ⟨(hpos' kind).1, (hpos kind).2⟩, ?_⟩
  have htree : a.tree / b.tree * (b.tree / c.tree) = a.tree / c.tree :=
    div_mul_div_cancel₀ (hcost .tree)
  have hdag : a.dag / b.dag * (b.dag / c.dag) = a.dag / c.dag := div_mul_div_cancel₀ (hcost .dag)
  simp only [Ratios.times, htree, hdag, timeRatio_mul]

/-- The benchmarks of two extractors are those that one of them has a result for. -/
theorem benchmarks_congr {e₁ e₂ e₃ e₄ : String}
    (h : ∀ name, Covers ms e₁ name ∨ Covers ms e₂ name ↔ Covers ms e₃ name ∨ Covers ms e₄ name) :
    benchmarks (ofExtractor e₁ ms ++ ofExtractor e₂ ms) =
      benchmarks (ofExtractor e₃ ms ++ ofExtractor e₄ ms) := by
  refine Ascending.names_congr fun name =>
    Ascending.mem_names_iff.symm.trans (Iff.trans ?_ Ascending.mem_names_iff)
  exact mem_benchmarks_append_iff.trans ((h name).trans mem_benchmarks_append_iff.symm)

/-- The ratios of a comparison are listed under the benchmarks that were asked for. -/
theorem comparePairs_chain {F M L : List (Measurement Rat)} {names : List String}
    {pairs pairs' : List (Pair Rat × Ratios Rat)}
    (h : comparePairs first middle F M names = .ok pairs)
    (h' : comparePairs middle last M L names = .ok pairs') :
    comparePairs first last F L names =
      .ok (List.zipWith (fun p q => ((p.1.1, q.1.2), p.2.times q.2)) pairs pairs') := by
  refine mapM_zipWith h h' fun name p q hp hq => ?_
  obtain ⟨⟨a, b⟩, hab, hp⟩ := bind_eq_ok_iff.mp hp
  obtain ⟨r, hr, hp⟩ := bind_eq_ok_iff.mp hp
  obtain ⟨⟨b', c⟩, hbc, hq⟩ := bind_eq_ok_iff.mp hq
  obtain ⟨r', hr', hq⟩ := bind_eq_ok_iff.mp hq
  cases hp
  cases hq
  obtain ⟨ha, hb⟩ := pairFor_eq_ok_iff.mp hab
  obtain ⟨hb', hc⟩ := pairFor_eq_ok_iff.mp hbc
  -- Both comparisons looked up the same result of the extractor in the middle.
  cases Option.some.inj (hb.symm.trans hb')
  have hac : pairFor first last F L name = .ok (a, c) := pairFor_eq_ok_iff.mpr ⟨ha, hc⟩
  exact bind_eq_ok_iff.mpr ⟨_, hac, bind_eq_ok_iff.mpr ⟨_, ratiosOf_chain hr hr', rfl⟩⟩

/-- If two extractors can be compared to a third one in the middle they can be compared to each
other. -/
theorem exists_summarize_chain [Elementary Rat] {s t : Summary Rat}
    (hs : summarize config ms first middle = .ok s) (ht : summarize config ms middle last = .ok t) :
    ∃ u, summarize config ms first last = .ok u ∧ s.Chained t u := by
  obtain ⟨h1, h2, pairs, hpairs, hs⟩ := summarize_eq_ok_iff.mp hs
  obtain ⟨-, h3, pairs', hpairs', ht⟩ := summarize_eq_ok_iff.mp ht
  have hcov := ((exists_comparePairs_benchmarks_iff h1 h2).mp ⟨pairs, hpairs⟩).1
  have hcov' := ((exists_comparePairs_benchmarks_iff h2 h3).mp ⟨pairs', hpairs'⟩).1
  -- Each of the three extractors covers the same benchmarks, so that all comparisons run over one
  -- list of names.
  have hnames : benchmarks (ofExtractor first ms ++ ofExtractor middle ms) =
      benchmarks (ofExtractor first ms ++ ofExtractor last ms) :=
    benchmarks_congr fun name => by rw [hcov name, hcov' name]
  have hnames' : benchmarks (ofExtractor middle ms ++ ofExtractor last ms) =
      benchmarks (ofExtractor first ms ++ ofExtractor last ms) :=
    benchmarks_congr fun name => by rw [hcov name]
  rw [hnames] at hpairs
  rw [hnames'] at hpairs'
  have hjoined := comparePairs_chain hpairs hpairs'
  have hne : pairs ≠ [] := by
    rintro rfl
    cases hs
  have hne' : pairs' ≠ [] := by
    rintro rfl
    cases ht
  have hjoint : List.zipWith (fun p q => ((p.1.1, q.1.2), p.2.times q.2)) pairs pairs' ≠ [] := by
    simpa using ⟨hne, hne'⟩
  obtain ⟨u, hu, -, -⟩ := @exists_ofPairs first last _ config _ hjoint
    fun p hp => by
      obtain ⟨_, -, -, hr⟩ := exists_name_of_mem_comparePairs hjoined hp
      exact ratios_pos hr
  refine ⟨u, summarize_eq_ok_iff.mpr ⟨h1, h3, _, hjoined, hu⟩, ?_, ?_⟩
  · rw [(summary_of_ofPairs hs).ratios, (summary_of_ofPairs ht).ratios, List.map_map, List.map_map]
    exact (map_name_of_comparePairs hpairs').trans (map_name_of_comparePairs hpairs).symm
  · rw [(summary_of_ofPairs hu).ratios, (summary_of_ofPairs hs).ratios,
      (summary_of_ofPairs ht).ratios, List.map_zipWith, List.zipWith_map]

end Chain

/-- Comparisons are a consistent system of ratios. Two extractors can be compared both ways or
neither way; the two comparisons are the reverse of each other, and where both fail for a gap or a
cost that is not positive they name the same benchmark and cost. Comparisons with a common extractor
multiply. -/
theorem summarize_consistent [Elementary Rat] (config : RatioConfig) (ms : List (Measurement Rat))
    (e₁ e₂ e₃ : String) :
    ((∃ s, summarize config ms e₁ e₂ = .ok s) ↔ ∃ s', summarize config ms e₂ e₁ = .ok s') ∧
      (∀ s s', summarize config ms e₁ e₂ = .ok s → summarize config ms e₂ e₁ = .ok s' →
        s.Reversed s') ∧
      (∀ s t, summarize config ms e₁ e₂ = .ok s → summarize config ms e₂ e₃ = .ok t →
        ∃ u, summarize config ms e₁ e₃ = .ok u ∧ s.Chained t u) ∧
      (∀ benchmark extractor other, summarize config ms e₁ e₂ =
        .error (.missing benchmark extractor other) →
        summarize config ms e₂ e₁ = .error (.missing benchmark extractor other)) ∧
      ∀ benchmark extractor kind, summarize config ms e₁ e₂ =
        .error (.zeroCost benchmark extractor kind) →
        ∃ extractor', summarize config ms e₂ e₁ = .error (.zeroCost benchmark extractor' kind) := by
  have halike := alike_summarize config ms e₁ e₂
  refine ⟨halike.exists_ok_iff, fun s s' hs hs' => halike.of_ok hs hs',
    fun s t => exists_summarize_chain,
    fun benchmark extractor other h => ?_, fun benchmark extractor kind h => ?_⟩
  · obtain ⟨fault, hfault, hflaw⟩ := halike.exists_of_error h
    cases hflaw
    exact hfault
  · obtain ⟨fault, hfault, hflaw⟩ := halike.exists_of_error h
    cases hflaw
    exact ⟨_, hfault⟩

end ExtractionBench.Comparison
