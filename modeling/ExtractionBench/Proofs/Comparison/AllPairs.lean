import Mathlib.Data.Prod.Lex
import Mathlib.Tactic
import ExtractionBench.Proofs.Comparison.Steps
import ExtractionBench.Proofs.Measurement.Coverage

/-!
# Comparing all pairs of extractors

Two extractors can be compared if neither has a repeated result, both cover the same benchmarks and
all their costs are positive; nothing later in a comparison can fail. So all ordered pairs can be
compared exactly if the results as a whole have no repetition, no gap in coverage and no cost that
is not positive.
-/

namespace ExtractionBench.Comparison

open Measurement (Covers ofExtractor extractors benchmarks coverageGaps)

section Pairs

/-- The ordered pairs of distinct extractors, first by the first extractor. -/
def orderedPairs (es : List String) : List (String × String) :=
  es.flatMap fun first => (es.filter (· != first)).map fun second => (first, second)

variable {es : List String}

theorem mem_orderedPairs_iff {first second : String} :
    (first, second) ∈ orderedPairs es ↔ first ∈ es ∧ second ∈ es ∧ first ≠ second := by
  unfold orderedPairs
  simp only [List.mem_flatMap, List.mem_map, List.mem_filter, Prod.mk.injEq, bne_iff_ne, ne_eq]
  constructor
  · rintro ⟨a, ha, b, ⟨hb, hne⟩, rfl, rfl⟩
    exact ⟨ha, hb, fun h => hne h.symm⟩
  · rintro ⟨h1, h2, hne⟩
    exact ⟨first, h1, second, ⟨h2, fun h => hne h.symm⟩, rfl, rfl⟩

/-- Each of `k` extractors goes with the `k - 1` others. -/
theorem length_orderedPairs (hes : es.Nodup) :
    (orderedPairs es).length = es.length * (es.length - 1) := by
  have hothers :
      ∀ e ∈ es, ((es.filter (· != e)).map fun second => (e, second)).length = es.length - 1 := by
    intro e he
    rw [List.length_map, ← hes.erase_eq_filter e, List.length_erase_of_mem he]
  unfold orderedPairs
  rw [List.length_flatMap, List.map_congr_left hothers, List.map_const', List.sum_replicate,
    smul_eq_mul]

theorem orderedPairs_eq_nil (hes : es.Nodup) (hlen : es.length ≤ 1) : orderedPairs es = [] := by
  refine List.eq_nil_of_length_eq_zero ?_
  rw [length_orderedPairs hes, Nat.sub_eq_zero_of_le hlen, Nat.mul_zero]

/-- With the extractors in ascending order the pairs are in ascending lexicographic order. -/
theorem pairwise_orderedPairs (hes : es.Pairwise (· < ·)) :
    (orderedPairs es).Pairwise (Prod.Lex (· < ·) (· < ·)) := by
  unfold orderedPairs
  refine List.pairwise_flatMap.mpr ⟨fun e _ => ?_, hes.imp fun {e e'} hlt => ?_⟩
  · exact List.pairwise_map.mpr ((hes.filter _).imp fun hlt => Prod.Lex.right _ hlt)
  · intro p hp q hq
    obtain ⟨_, _, rfl⟩ := List.mem_map.mp hp
    obtain ⟨_, _, rfl⟩ := List.mem_map.mp hq
    exact Prod.Lex.left _ _ hlt

/-- Among two or more extractors each has another one. -/
theorem exists_other (hes : es.Nodup) (hlen : ¬ es.length ≤ 1) {e : String} (he : e ∈ es) :
    ∃ e' ∈ es, e ≠ e' := by
  have hpos : 0 < (es.erase e).length := by
    rw [List.length_erase_of_mem he]
    omega
  obtain ⟨e', he'⟩ := List.exists_mem_of_length_pos hpos
  obtain ⟨hne, hmem⟩ := hes.mem_erase_iff.mp he'
  exact ⟨e', hmem, fun h => hne h.symm⟩

end Pairs

/-! ## One pair -/

section Pair

variable {α : Type} {ms : List (Measurement α)} {first second : String}

theorem mem_benchmarks_append_iff {name : String} :
    name ∈ benchmarks (ofExtractor first ms ++ ofExtractor second ms) ↔
      Covers ms first name ∨ Covers ms second name := by
  simp only [Measurement.mem_benchmarks_iff, List.mem_append, Measurement.mem_ofExtractor, Covers]
  constructor
  · rintro ⟨m, ⟨hm, he⟩ | ⟨hm, he⟩, hname⟩
    · exact .inl ⟨m, hm, he, hname⟩
    · exact .inr ⟨m, hm, he, hname⟩
  · rintro (⟨m, hm, he, hname⟩ | ⟨m, hm, he, hname⟩)
    · exact ⟨m, .inl ⟨hm, he⟩, hname⟩
    · exact ⟨m, .inr ⟨hm, he⟩, hname⟩

variable [Scalar α]

/-- What a comparison can fail with, each with the flaw of the results that it tells of: a repeated
result, a benchmark that an extractor lacks, or a cost that is not positive. -/
inductive Refusal (ms : List (Measurement α)) : Fault α → Prop where
  /-- Two results of an extractor are for one benchmark, the earlier one is told first. -/
  | repeated {m m' : Measurement α} (hsub : [m, m'].Sublist ms) (hname : m'.name = m.name)
      (hextractor : m'.extractor = m.extractor) :
      Refusal ms (.repeated m.name m.extractor m.file m'.file)
  /-- A benchmark that the other extractor has a result for is among the gaps of an extractor. -/
  | missing {benchmark extractor other : String} (hother : Covers ms other benchmark)
      (hgap : ∃ names, (extractor, names) ∈ coverageGaps ms ∧ benchmark ∈ names) :
      Refusal ms (.missing benchmark extractor other)
  /-- A cost is not positive. -/
  | zeroCost {m : Measurement α} {kind : CostKind} (hm : m ∈ ms)
      (hcost : ¬ ((0 : Nat) : α) < m.cost kind) :
      Refusal ms (.zeroCost m.name m.extractor kind)

theorem refusal_of_index {e : String} {fault : Fault α}
    (h : Measurement.index ms e = .error fault) :
    Refusal ms fault := by
  obtain ⟨m, m', hsub, hname, rfl⟩ := Measurement.exists_repeated_of_index h
  obtain ⟨-, he⟩ := Measurement.mem_ofExtractor.mp (hsub.subset List.mem_cons_self)
  obtain ⟨-, he'⟩ :=
    Measurement.mem_ofExtractor.mp (hsub.subset (List.mem_cons_of_mem m List.mem_cons_self))
  have hall : [m, m'].Sublist ms := hsub.trans List.filter_sublist
  exact he ▸ .repeated hall hname (he'.trans he.symm)

/-- When one of two extractors lacks a benchmark that is compared, it is the other one that has
it. -/
theorem refusal_of_pairFor {name : String} {fault : Fault α} (hfirst : first ∈ extractors ms)
    (hsecond : second ∈ extractors ms)
    (hname : name ∈ benchmarks (ofExtractor first ms ++ ofExtractor second ms))
    (h : pairFor first second (ofExtractor first ms) (ofExtractor second ms) name = .error fault) :
    Refusal ms fault := by
  have hrefusal : ∀ e other, e ∈ extractors ms → Covers ms e name ∨ Covers ms other name →
      Measurement.find? name (ofExtractor e ms) = none →
        Refusal ms (Fault.missing name e other) := by
    intro e other he hcov hnone
    have hlacks : ¬ Covers ms e name := Measurement.find?_ofExtractor_eq_none_iff.mp hnone
    have hother : Covers ms other name := hcov.resolve_left hlacks
    have hmissing := Measurement.mem_missingFor_iff.mpr ⟨⟨other, hother⟩, hlacks⟩
    exact .missing hother (Measurement.exists_gap he hmissing)
  have hcov := mem_benchmarks_append_iff.mp hname
  rcases pairFor_eq_error h with ⟨rfl, hnone⟩ | ⟨rfl, hnone⟩
  · exact hrefusal first second hfirst hcov hnone
  · exact hrefusal second first hsecond hcov.symm hnone

theorem refusal_of_isZeroCost {name : String} {pair : Pair α} {fault : Fault α}
    (hpair : pairFor first second (ofExtractor first ms) (ofExtractor second ms) name = .ok pair)
    (h : IsZeroCost first second pair fault) : Refusal ms fault := by
  obtain ⟨hfirst, hsecond⟩ := pairFor_eq_ok_iff.mp hpair
  obtain ⟨hm1, hname1⟩ := Measurement.mem_of_find? hfirst
  obtain ⟨hm2, hname2⟩ := Measurement.mem_of_find? hsecond
  obtain ⟨hmem1, rfl⟩ := Measurement.mem_ofExtractor.mp hm1
  obtain ⟨hmem2, rfl⟩ := Measurement.mem_ofExtractor.mp hm2
  obtain ⟨kind, ⟨rfl, hcost⟩ | ⟨rfl, hcost⟩⟩ := h
  · rw [hname1, ← hname2]
    exact .zeroCost hmem2 hcost
  · exact .zeroCost hmem1 hcost

/-- The results of two extractors can be compared if they cover the same benchmarks at positive
costs. -/
theorem exists_comparePairs_benchmarks_iff (h1 : ((ofExtractor first ms).map (·.name)).Nodup)
    (h2 : ((ofExtractor second ms).map (·.name)).Nodup) :
    (∃ pairs, comparePairs first second (ofExtractor first ms) (ofExtractor second ms)
        (benchmarks (ofExtractor first ms ++ ofExtractor second ms)) = .ok pairs) ↔
      (∀ name, Covers ms first name ↔ Covers ms second name) ∧
        ∀ m ∈ ms, m.extractor = first ∨ m.extractor = second →
          ∀ kind, ((0 : Nat) : α) < m.cost kind := by
  rw [exists_comparePairs_iff]
  simp only [mem_benchmarks_append_iff, Measurement.find?_ofExtractor_eq_some_iff h1,
    Measurement.find?_ofExtractor_eq_some_iff h2]
  constructor
  · intro h
    have hboth : ∀ name, Covers ms first name ∨ Covers ms second name →
        Covers ms first name ∧ Covers ms second name := by
      intro name hname
      obtain ⟨pair, hfirst, hsecond, -⟩ := h name hname
      exact ⟨⟨pair.1, hfirst⟩, ⟨pair.2, hsecond⟩⟩
    refine ⟨fun name => ⟨fun hc => (hboth name (.inl hc)).2, fun hc => (hboth name (.inr hc)).1⟩,
      ?_⟩
    -- The one result of an extractor for a benchmark is the one that was compared.
    rintro m hm (he | he) kind
    · obtain ⟨pair, ⟨hm1, he1, hname⟩, -, hpos⟩ := h m.name (.inl ⟨m, hm, he, rfl⟩)
      have heq : pair.1 = m :=
        List.inj_on_of_nodup_map h1 (Measurement.mem_ofExtractor.mpr ⟨hm1, he1⟩)
        (Measurement.mem_ofExtractor.mpr ⟨hm, he⟩) hname
      exact heq ▸ (hpos kind).2
    · obtain ⟨pair, -, ⟨hm2, he2, hname⟩, hpos⟩ := h m.name (.inr ⟨m, hm, he, rfl⟩)
      have heq : pair.2 = m :=
        List.inj_on_of_nodup_map h2 (Measurement.mem_ofExtractor.mpr ⟨hm2, he2⟩)
        (Measurement.mem_ofExtractor.mpr ⟨hm, he⟩) hname
      exact heq ▸ (hpos kind).1
  · rintro ⟨hsame, hpos⟩ name hname
    have hboth : Covers ms first name ∧ Covers ms second name := by
      rcases hname with hc | hc
      · exact ⟨hc, (hsame name).mp hc⟩
      · exact ⟨(hsame name).mpr hc, hc⟩
    obtain ⟨⟨m1, hm1, he1, hname1⟩, ⟨m2, hm2, he2, hname2⟩⟩ := hboth
    exact ⟨(m1, m2), ⟨hm1, he1, hname1⟩, ⟨hm2, he2, hname2⟩,
      fun kind => ⟨hpos m2 hm2 (.inr he2) kind, hpos m1 hm1 (.inl he1) kind⟩⟩

variable [Elementary α] {config : RatioConfig}

/-- A comparison that tells of repeated results does so for results that are repeated. -/
theorem repeated_of_summarize {benchmark extractor : String} {file file' : Path}
    (h : summarize config ms first second = .error (.repeated benchmark extractor file file')) :
    Refusal ms (.repeated benchmark extractor file file') := by
  unfold summarize at h
  rcases bind_eq_error_iff.mp h with h1 | ⟨ofFirst, -, h⟩
  · exact refusal_of_index h1
  rcases bind_eq_error_iff.mp h with h2 | ⟨ofSecond, -, h⟩
  · exact refusal_of_index h2
  rcases bind_eq_error_iff.mp h with hpairs | ⟨pairs, -, hs⟩
  · obtain ⟨_, -, hpair | ⟨_, -, _, hzero | hzero⟩⟩ := comparePairs_eq_error hpairs
    · rcases pairFor_eq_error hpair with ⟨hfault, -⟩ | ⟨hfault, -⟩
      · cases hfault
      · cases hfault
    · cases hzero.1
    · cases hzero.1
  · rcases ofPairs_eq_error hs with ⟨_, hfault⟩ | ⟨_, hfault⟩
    · cases hfault
    · cases hfault

theorem summarize_eq_ok_iff {s : Summary α} :
    summarize config ms first second = .ok s ↔
      ((ofExtractor first ms).map (·.name)).Nodup ∧ ((ofExtractor second ms).map (·.name)).Nodup ∧
        ∃ pairs, comparePairs first second (ofExtractor first ms) (ofExtractor second ms)
            (benchmarks (ofExtractor first ms ++ ofExtractor second ms)) = .ok pairs ∧
          Summary.ofPairs config first second pairs = .ok s := by
  unfold summarize
  simp only [bind_eq_ok_iff, Measurement.index_eq_ok_iff]
  constructor
  · rintro ⟨_, ⟨h1, rfl⟩, _, ⟨h2, rfl⟩, h⟩
    exact ⟨h1, h2, h⟩
  · rintro ⟨h1, h2, h⟩
    exact ⟨_, ⟨h1, rfl⟩, _, ⟨h2, rfl⟩, h⟩

end Pair

/-! ## One pair, in the exact reading -/

section Exact

variable [Elementary Rat] {config : RatioConfig} {ms : List (Measurement Rat)}
  {first second : String}

/-- There is a summary of what was compared: nothing past the ratios can fail. -/
theorem exists_ofPairs_of_comparePairs (config : RatioConfig) (hfirst : first ∈ extractors ms)
    {pairs : List (Pair Rat × Ratios Rat)}
    (h : comparePairs first second (ofExtractor first ms) (ofExtractor second ms)
      (benchmarks (ofExtractor first ms ++ ofExtractor second ms)) = .ok pairs) :
    ∃ s, Summary.ofPairs config first second pairs = .ok s ∧ s.first = first ∧
      s.second = second := by
  refine exists_ofPairs ?_ fun p hp => ?_
  · rintro rfl
    obtain ⟨m, hm, he⟩ := Measurement.mem_extractors_iff.mp hfirst
    have hname : m.name ∈ benchmarks (ofExtractor first ms ++ ofExtractor second ms) :=
      mem_benchmarks_append_iff.mpr (.inl ⟨m, hm, he, rfl⟩)
    rw [List.eq_nil_of_length_eq_zero (length_of_comparePairs h).symm] at hname
    exact absurd hname List.not_mem_nil
  · obtain ⟨_, _, _, hr⟩ := exists_name_of_mem_comparePairs h hp
    exact ratios_pos hr

/-- Two extractors can be compared if neither has a repeated result and they cover the same
benchmarks at positive costs. -/
theorem exists_summarize_iff (hfirst : first ∈ extractors ms) :
    (∃ s, summarize config ms first second = .ok s) ↔
      (((ofExtractor first ms).map (·.name)).Nodup ∧ ((ofExtractor second ms).map (·.name)).Nodup) ∧
        (∀ name, Covers ms first name ↔ Covers ms second name) ∧
        ∀ m ∈ ms, m.extractor = first ∨ m.extractor = second →
          ∀ kind, ((0 : Nat) : Rat) < m.cost kind := by
  constructor
  · rintro ⟨s, hs⟩
    obtain ⟨h1, h2, pairs, hpairs, -⟩ := summarize_eq_ok_iff.mp hs
    exact ⟨⟨h1, h2⟩, (exists_comparePairs_benchmarks_iff h1 h2).mp ⟨pairs, hpairs⟩⟩
  · rintro ⟨⟨h1, h2⟩, h⟩
    obtain ⟨pairs, hpairs⟩ := (exists_comparePairs_benchmarks_iff h1 h2).mpr h
    obtain ⟨s, hs, -⟩ := exists_ofPairs_of_comparePairs config hfirst hpairs
    exact ⟨s, summarize_eq_ok_iff.mpr ⟨h1, h2, pairs, hpairs, hs⟩⟩

/-- A comparison is of the two extractors it was asked for. -/
theorem extractors_of_summarize (hfirst : first ∈ extractors ms) {s : Summary Rat}
    (h : summarize config ms first second = .ok s) : (s.first, s.second) = (first, second) := by
  obtain ⟨-, -, pairs, hpairs, hs⟩ := summarize_eq_ok_iff.mp h
  obtain ⟨s', hs', rfl, rfl⟩ := exists_ofPairs_of_comparePairs config hfirst hpairs
  cases hs.symm.trans hs'
  rfl

/-- A comparison that fails tells of a repeated result, a gap or a cost that is not positive. -/
theorem refusal_of_summarize (hfirst : first ∈ extractors ms) (hsecond : second ∈ extractors ms)
    {fault : Fault Rat} (h : summarize config ms first second = .error fault) :
    Refusal ms fault := by
  unfold summarize at h
  rcases bind_eq_error_iff.mp h with h1 | ⟨ofFirst, h1, h⟩
  · exact refusal_of_index h1
  rcases bind_eq_error_iff.mp h with h2 | ⟨ofSecond, h2, h⟩
  · exact refusal_of_index h2
  obtain ⟨-, rfl⟩ := Measurement.index_eq_ok_iff.mp h1
  obtain ⟨-, rfl⟩ := Measurement.index_eq_ok_iff.mp h2
  rcases bind_eq_error_iff.mp h with hpairs | ⟨pairs, hpairs, hs⟩
  · obtain ⟨name, hname, hpair | ⟨pair, hpair, hzero⟩⟩ := comparePairs_eq_error hpairs
    · exact refusal_of_pairFor hfirst hsecond hname hpair
    · exact refusal_of_isZeroCost hpair hzero
  · obtain ⟨s, hok, -⟩ := exists_ofPairs_of_comparePairs config hfirst hpairs
    rw [hok] at hs
    cases hs

/-! ## All pairs -/

theorem summarizeAll_eq :
    summarizeAll config ms =
      (orderedPairs (extractors ms)).mapM fun p => summarize config ms p.1 p.2 :=
  rfl

/-- With two or more extractors, all pairs can be compared if the results as a whole have no
repetition, no gap and no cost that is not positive. -/
theorem forall_exists_summarize_iff (hlen : ¬ (extractors ms).length ≤ 1) :
    (∀ p ∈ orderedPairs (extractors ms), ∃ s, summarize config ms p.1 p.2 = .ok s) ↔
      (ms.map fun m => (m.name, m.extractor)).Nodup ∧ coverageGaps ms = [] ∧
        ∀ m ∈ ms, ∀ kind, ((0 : Nat) : Rat) < m.cost kind := by
  have hes : (extractors ms).Nodup := Ascending.nodup_names _
  rw [Measurement.nodup_iff_forall_ofExtractor, Measurement.coverageGaps_eq_nil_iff]
  constructor
  · intro h
    have hpair : ∀ e ∈ extractors ms, ∀ e' ∈ extractors ms, e ≠ e' → _ := fun e he e' he' hne =>
      (exists_summarize_iff he).mp (h (e, e') (mem_orderedPairs_iff.mpr ⟨he, he', hne⟩))
    refine ⟨fun e he => ?_, fun e he e' name hcov => ?_, fun m hm kind => ?_⟩
    · obtain ⟨e', he', hne⟩ := exists_other hes hlen he
      exact (hpair e he e' he' hne).1.1
    · by_cases heq : e = e'
      · rw [heq]
        exact hcov
      · exact ((hpair e he e' hcov.mem_extractors heq).2.1 name).mpr hcov
    · have he : m.extractor ∈ extractors ms := Measurement.mem_extractors_iff.mpr ⟨m, hm, rfl⟩
      obtain ⟨e', he', hne⟩ := exists_other hes hlen he
      exact (hpair _ he e' he' hne).2.2 m hm (.inl rfl) kind
  · rintro ⟨hnodup, hcov, hpos⟩ ⟨e, e'⟩ hp
    obtain ⟨he, he', -⟩ := mem_orderedPairs_iff.mp hp
    refine (exists_summarize_iff he).mpr
      ⟨⟨hnodup e he, hnodup e' he'⟩, fun name => ?_, fun m hm _ => hpos m hm⟩
    exact ⟨fun hc => hcov e' he' e name hc, fun hc => hcov e he e' name hc⟩

/-- The comparisons are of the ordered pairs, in order. -/
theorem map_extractors_of_summarizeAll {summaries : List (Summary Rat)}
    (h : summarizeAll config ms = .ok summaries) :
    (summaries.map fun s => (s.first, s.second)) = orderedPairs (extractors ms) := by
  refine map_eq_of_mapM h fun p hp s hs => ?_
  exact extractors_of_summarize (mem_orderedPairs_iff.mp hp).1 hs

/-- All pairs of extractors can be compared exactly if there are none, or the results have no
repetition, no gap in coverage and only positive costs. The comparisons are then one for each
ordered pair of distinct extractors, in ascending order. Otherwise what is told is a repetition, a
gap or a cost that is not positive. -/
theorem summarizeAll_agrees_with_coverage (config : RatioConfig) (ms : List (Measurement Rat)) :
    ((∃ summaries, summarizeAll config ms = .ok summaries) ↔
      (ms.map (·.extractor)).dedup.length ≤ 1 ∨
        (ms.map fun m => (m.name, m.extractor)).Nodup ∧ coverageGaps ms = [] ∧
          ∀ m ∈ ms, 0 < m.tree ∧ 0 < m.dag) ∧
      (∀ summaries, summarizeAll config ms = .ok summaries →
        summaries.length =
          (ms.map (·.extractor)).dedup.length * ((ms.map (·.extractor)).dedup.length - 1) ∧
          (summaries.map fun s => (s.first, s.second)).Pairwise (Prod.Lex (· < ·) (· < ·)) ∧
          ∀ first second, (∃ s ∈ summaries, s.first = first ∧ s.second = second) ↔
            (∃ m ∈ ms, m.extractor = first) ∧ (∃ m ∈ ms, m.extractor = second) ∧ first ≠ second) ∧
      ∀ fault, summarizeAll config ms = .error fault → Refusal ms fault := by
  have hcount : (ms.map (·.extractor)).dedup.length = (extractors ms).length :=
    (Ascending.length_names _).symm
  have hes : (extractors ms).Nodup := Ascending.nodup_names _
  rw [hcount]
  refine ⟨?_, fun summaries h => ?_, fun fault h => ?_⟩
  · rw [summarizeAll_eq, exists_mapM_eq_ok_iff]
    by_cases hlen : (extractors ms).length ≤ 1
    · rw [orderedPairs_eq_nil hes hlen]
      exact iff_of_true (fun _ hp => absurd hp List.not_mem_nil) (.inl hlen)
    · rw [forall_exists_summarize_iff hlen, or_iff_right hlen]
      have hpos : ∀ m : Measurement Rat, (∀ kind, ((0 : Nat) : Rat) < m.cost kind) ↔
          0 < m.tree ∧ 0 < m.dag :=
        fun m => forall_costKind_iff
      simp only [hpos]
  · have hmap := map_extractors_of_summarizeAll h
    refine ⟨?_, ?_, fun first second => ?_⟩
    · rw [← length_orderedPairs hes, ← hmap, List.length_map]
    · rw [hmap]
      exact pairwise_orderedPairs (Ascending.pairwise_names _)
    · rw [← Measurement.mem_extractors_iff, ← Measurement.mem_extractors_iff,
        ← mem_orderedPairs_iff, ← hmap]
      simp
  · obtain ⟨⟨e, e'⟩, hp, hs⟩ := exists_error_of_mapM h
    obtain ⟨he, he', -⟩ := mem_orderedPairs_iff.mp hp
    exact refusal_of_summarize he he' hs

end Exact

end ExtractionBench.Comparison
