import Mathlib.Tactic
import ExtractionBench.Proofs.Comparison.AllPairs

/-!
# What a comparison depends on

The comparison of two extractors looks up their results by benchmark, in ascending order. The order
in which the results are given, the files they were read from and what other extractors have found
make no difference to it. Only when a result is repeated do they: they decide which two results for
a benchmark meet first.
-/

namespace ExtractionBench.Measurement

variable {α : Type} {xs ys ms ms' : List (Measurement α)} {e first second name : String}

/-! ## Results without their places -/

/-- A result without the place that it was read from. -/
def unplaced (m : Measurement α) : Measurement α := { m with file := ⟨""⟩, directory := ⟨""⟩ }

/-- The results of two extractors, without their places. -/
def resultsOf (first second : String) (ms : List (Measurement α)) : List (Measurement α) :=
  (ms.map unplaced).filter fun m => m.extractor == first || m.extractor == second

/-- An extractor has two results for one benchmark. -/
def Repeats (e : String) (ms : List (Measurement α)) : Prop :=
  ¬ ((ofExtractor e ms).map (·.name)).Nodup

theorem ofExtractor_unplaced (e : String) (ms : List (Measurement α)) :
    ofExtractor e (ms.map unplaced) = (ofExtractor e ms).map unplaced :=
  List.filter_map

/-- All results of both extractors are kept. -/
theorem ofExtractor_resultsOf (he : e = first ∨ e = second) :
    ofExtractor e (resultsOf first second ms) = (ofExtractor e ms).map unplaced := by
  rw [← ofExtractor_unplaced, resultsOf, ofExtractor, List.filter_filter]
  refine List.filter_congr fun m _ => ?_
  rcases he with rfl | rfl
  · cases m.extractor == e <;> simp
  · cases m.extractor == e <;> simp

theorem names_perm_of_unplaced (h : (xs.map unplaced).Perm (ys.map unplaced)) :
    (xs.map (·.name)).Perm (ys.map (·.name)) := by
  have hnames := h.map (·.name)
  rwa [List.map_map, List.map_map] at hnames

/-- Repetitions do not depend on the order or the place of results. -/
theorem repeats_congr
    (h : ((ofExtractor e ms).map unplaced).Perm ((ofExtractor e ms').map unplaced)) :
    Repeats e ms ↔ Repeats e ms' :=
  not_congr (names_perm_of_unplaced h).nodup_iff

/-- The benchmarks do not depend on the order or the place of results. -/
theorem benchmarks_congr_of_unplaced {xs' ys' : List (Measurement α)}
    (hx : (xs.map unplaced).Perm (xs'.map unplaced))
    (hy : (ys.map unplaced).Perm (ys'.map unplaced)) :
    benchmarks (xs ++ ys) = benchmarks (xs' ++ ys') := by
  refine Ascending.names_congr fun name => ?_
  rw [List.map_append, List.map_append]
  exact ((names_perm_of_unplaced hx).append (names_perm_of_unplaced hy)).mem_iff

/-- The extractors do not depend on the order or the place of results. -/
theorem extractors_congr_of_unplaced (h : (ms.map unplaced).Perm (ms'.map unplaced)) :
    extractors ms = extractors ms' := by
  refine Ascending.names_congr fun e => ?_
  have hextractors := h.map (·.extractor)
  rw [List.map_map, List.map_map] at hextractors
  exact hextractors.mem_iff

/-- With one result for each benchmark, it does not matter where in the list it is. -/
theorem find?_perm (hnodup : (xs.map (·.name)).Nodup) (h : xs.Perm ys) :
    find? name xs = find? name ys := by
  have hnodup' : (ys.map (·.name)).Nodup := (h.map _).nodup_iff.mp hnodup
  ext m
  rw [find?_eq_some_iff hnodup, find?_eq_some_iff hnodup', h.mem_iff]

/-- Without repetitions the result for a benchmark is found in every order. -/
theorem find?_congr_of_unplaced (hnodup : (xs.map (·.name)).Nodup)
    (h : (xs.map unplaced).Perm (ys.map unplaced)) :
    (find? name xs).map unplaced = (find? name ys).map unplaced := by
  have hmap :
      ∀ zs : List (Measurement α), find? name (zs.map unplaced) = (find? name zs).map unplaced :=
    fun zs => List.find?_map
  rw [← hmap, ← hmap]
  refine find?_perm ?_ h
  rwa [List.map_map]

/-- Repetitions are refused, with the two files that have them. -/
theorem index_of_repeats (h : Repeats e ms) :
    ∃ benchmark file file', index ms e = .error (.repeated benchmark e file file') := by
  cases hindex : index ms e with
  | ok results => exact absurd (index_eq_ok_iff.mp hindex).1 h
  | error fault =>
    obtain ⟨m, m', -, -, rfl⟩ := exists_repeated_of_index hindex
    exact ⟨_, _, _, rfl⟩

end ExtractionBench.Measurement

namespace ExtractionBench.Comparison

open Measurement (ofExtractor extractors benchmarks unplaced resultsOf Repeats)

variable {α : Type} {first second name : String}
  {ms ms' ofFirst ofSecond ofFirst' ofSecond' : List (Measurement α)}

/-! ## One benchmark -/

/-- Two pairs are the same results, wherever these were read from. -/
def SamePair (p q : Pair α) : Prop := p.1.unplaced = q.1.unplaced ∧ p.2.unplaced = q.2.unplaced

/-- A pair is the same, or is refused alike, if the same results are found. -/
theorem alike_pairFor_of_find?
    (h1 : (Measurement.find? name ofFirst).map unplaced =
      (Measurement.find? name ofFirst').map unplaced)
    (h2 : (Measurement.find? name ofSecond).map unplaced =
      (Measurement.find? name ofSecond').map unplaced) :
    Alike Eq SamePair (pairFor first second ofFirst ofSecond name)
      (pairFor first second ofFirst' ofSecond' name) := by
  unfold pairFor
  cases hf : Measurement.find? name ofFirst with
  | none =>
    rw [hf, Option.map_none, eq_comm, Option.map_eq_none_iff] at h1
    rw [h1]
    exact .error rfl
  | some a =>
    rw [hf, Option.map_some, eq_comm, Option.map_eq_some_iff] at h1
    obtain ⟨a', ha', ha⟩ := h1
    rw [ha']
    cases hs : Measurement.find? name ofSecond with
    | none =>
      rw [hs, Option.map_none, eq_comm, Option.map_eq_none_iff] at h2
      rw [h2]
      exact .error rfl
    | some b =>
      rw [hs, Option.map_some, eq_comm, Option.map_eq_some_iff] at h2
      obtain ⟨b', hb', hb⟩ := h2
      rw [hb']
      exact .ok ⟨ha.symm, hb.symm⟩

variable [Scalar α]

theorem ratiosOf_congr {p q : Pair α} (h : SamePair p q) :
    ratiosOf first second p = ratiosOf first second q := by
  have hplace :
      ∀ p : Pair α, ratiosOf first second p = ratiosOf first second (p.1.unplaced, p.2.unplaced) :=
    fun _ => rfl
  rw [hplace p, hplace q, h.1, h.2]

theorem mismatchesOf_congr {policy : TreeCostPolicy} {p q : Pair α} (h : SamePair p q) :
    mismatchesOf policy p = mismatchesOf policy q := by
  have hplace :
      ∀ p : Pair α, mismatchesOf policy p = mismatchesOf policy (p.1.unplaced, p.2.unplaced) := by
    rintro ⟨a, b⟩
    rfl
  rw [hplace p, hplace q, h.1, h.2]

/-- Comparisons are the same, or are refused alike, if the same results are found. -/
theorem alike_comparePairs_of_find? {names : List String}
    (h1 : ∀ name, (Measurement.find? name ofFirst).map unplaced =
      (Measurement.find? name ofFirst').map unplaced)
    (h2 : ∀ name, (Measurement.find? name ofSecond).map unplaced =
      (Measurement.find? name ofSecond').map unplaced) :
    Alike Eq (List.Forall₂ fun p q => SamePair p.1 q.1 ∧ p.2 = q.2)
      (comparePairs first second ofFirst ofSecond names)
      (comparePairs first second ofFirst' ofSecond' names) := by
  refine Alike.mapM fun name _ => ?_
  refine (alike_pairFor_of_find? (h1 name) (h2 name)).bind fun p q hpq => ?_
  rw [← ratiosOf_congr hpq]
  cases ratiosOf first second p with
  | error fault => exact .error rfl
  | ok ratios => exact .ok ⟨hpq, rfl⟩

/-! ## Two extractors -/

variable [Elementary α] {config : RatioConfig}

/-- A summary depends on pairs only by their results. -/
theorem ofPairs_congr {pairs pairs' : List (Pair α × Ratios α)}
    (h : List.Forall₂ (fun p q => SamePair p.1 q.1 ∧ p.2 = q.2) pairs pairs') :
    Summary.ofPairs config first second pairs = Summary.ofPairs config first second pairs' := by
  have hmap : ∀ {γ : Type} (f : Pair α × Ratios α → γ),
      (∀ p q, SamePair p.1 q.1 ∧ p.2 = q.2 → f p = f q) → pairs.map f = pairs'.map f := by
    intro γ f hf
    rw [← List.forall₂_eq_eq_eq, List.forall₂_map_left_iff, List.forall₂_map_right_iff]
    exact h.imp hf
  have hempty : pairs.isEmpty = pairs'.isEmpty := by
    cases h <;> rfl
  have hratios : pairs.map (·.2) = pairs'.map (·.2) := hmap _ fun p q hpq => hpq.2
  have hmismatches : (pairs.flatMap fun p => mismatchesOf config.treeCosts p.1) =
      pairs'.flatMap fun p => mismatchesOf config.treeCosts p.1 := by
    rw [List.flatMap_def, List.flatMap_def, hmap _ fun p q hpq => mismatchesOf_congr hpq.1]
  have hfirst : (pairs.map fun p => p.1.1.micros) = pairs'.map fun p => p.1.1.micros :=
    hmap _ fun p q hpq => congrArg (·.micros) hpq.1.1
  have hsecond : (pairs.map fun p => p.1.2.micros) = pairs'.map fun p => p.1.2.micros :=
    hmap _ fun p q hpq => congrArg (·.micros) hpq.1.2
  simp only [Summary.ofPairs, hempty, hratios, hmismatches, hfirst, hsecond]

/-- Two extractors without repeated results are compared alike, wherever their results are in the
list and were read from. -/
theorem summarize_congr
    (hfirst : ((ofExtractor first ms).map unplaced).Perm ((ofExtractor first ms').map unplaced))
    (hsecond : ((ofExtractor second ms).map unplaced).Perm ((ofExtractor second ms').map unplaced))
    (hnodup1 : ((ofExtractor first ms).map (·.name)).Nodup)
    (hnodup2 : ((ofExtractor second ms).map (·.name)).Nodup) :
    summarize config ms first second = summarize config ms' first second := by
  have hindex : ∀ e (zs : List (Measurement α)), ((ofExtractor e zs).map (·.name)).Nodup →
      Measurement.index zs e = .ok (ofExtractor e zs) :=
        fun e zs h => Measurement.index_eq_ok_iff.mpr ⟨h, rfl⟩
  have hnodup1' := (Measurement.names_perm_of_unplaced hfirst).nodup_iff.mp hnodup1
  have hnodup2' := (Measurement.names_perm_of_unplaced hsecond).nodup_iff.mp hnodup2
  unfold summarize
  rw [hindex first ms hnodup1, hindex second ms hnodup2, hindex first ms' hnodup1',
    hindex second ms' hnodup2']
  simp only [bind, Except.bind]
  rw [Measurement.benchmarks_congr_of_unplaced hfirst hsecond]
  refine Alike.eq_iff.mp ((alike_comparePairs_of_find? ?_ ?_).bind fun pairs pairs' hpairs => ?_)
  · exact fun name => Measurement.find?_congr_of_unplaced hnodup1 hfirst
  · exact fun name => Measurement.find?_congr_of_unplaced hnodup2 hsecond
  · exact Alike.eq_iff.mpr (ofPairs_congr hpairs)

/-- A computation fails with a repeated result of an extractor. -/
def RefusesRepeated {β : Type} (e : String) (outcome : Except (Fault α) β) : Prop :=
  ∃ benchmark file file', outcome = .error (.repeated benchmark e file file')

/-- A comparison fails with repetitions of its first extractor. -/
theorem refusesRepeated_first (h : Repeats first ms) :
    RefusesRepeated first (summarize config ms first second) := by
  obtain ⟨benchmark, file, file', hindex⟩ := Measurement.index_of_repeats h
  refine ⟨benchmark, file, file', ?_⟩
  rw [summarize, hindex]
  rfl

/-- It fails with those of its second extractor if the first one has none. -/
theorem refusesRepeated_second (hfirst : ¬ Repeats first ms) (h : Repeats second ms) :
    RefusesRepeated second (summarize config ms first second) := by
  obtain ⟨benchmark, file, file', hindex⟩ := Measurement.index_of_repeats h
  refine ⟨benchmark, file, file', ?_⟩
  rw [summarize, Measurement.index_eq_ok_iff.mpr ⟨not_not.mp hfirst, rfl⟩, hindex]
  rfl

/-- Two extractors are compared alike unless one of them has a repeated result, and then both
comparisons refuse one of the same extractor. -/
theorem summarize_of_resultsOf (config : RatioConfig)
    (h : (resultsOf first second ms).Perm (resultsOf first second ms')) :
    (¬ Repeats first ms ∧ ¬ Repeats second ms →
      summarize config ms first second = summarize config ms' first second) ∧
      (Repeats first ms ∨ Repeats second ms → ∃ e, (e = first ∨ e = second) ∧ Repeats e ms ∧
        RefusesRepeated e (summarize config ms first second) ∧
        RefusesRepeated e (summarize config ms' first second)) := by
  have hof : ∀ e, e = first ∨ e = second →
      ((ofExtractor e ms).map unplaced).Perm ((ofExtractor e ms').map unplaced) := by
    intro e he
    rw [← Measurement.ofExtractor_resultsOf he, ← Measurement.ofExtractor_resultsOf he]
    exact h.filter _
  have hfirst := hof first (.inl rfl)
  have hsecond := hof second (.inr rfl)
  refine ⟨?_, fun hrepeats => ?_⟩
  · rintro ⟨hnot1, hnot2⟩
    exact summarize_congr hfirst hsecond (not_not.mp hnot1) (not_not.mp hnot2)
  · by_cases h1 : Repeats first ms
    · exact ⟨first, .inl rfl, h1, refusesRepeated_first h1,
        refusesRepeated_first ((Measurement.repeats_congr hfirst).mp h1)⟩
    · have h1' : ¬ Repeats first ms' := fun h1' => h1 ((Measurement.repeats_congr hfirst).mpr h1')
      have h2 : Repeats second ms := hrepeats.resolve_left h1
      exact ⟨second, .inr rfl, h2, refusesRepeated_second h1 h2,
        refusesRepeated_second h1' ((Measurement.repeats_congr hsecond).mp h2)⟩

/-! ## All extractors -/

/-- Two faults are one, or both tell of repeated results of one extractor. -/
inductive SameRefusal (ms : List (Measurement α)) : Fault α → Fault α → Prop where
  | same (fault : Fault α) : SameRefusal ms fault fault
  | repeated {e b b' : String} {f f' s s' : Path} (h : Repeats e ms) :
      SameRefusal ms (.repeated b e f s) (.repeated b' e f' s')

/-- A comparison does not depend on the order or the place of results, but for which of some
repetitions is told. -/
theorem alike_summarize_of_unplaced (h : (ms.map unplaced).Perm (ms'.map unplaced)) :
    Alike (SameRefusal ms) Eq (summarize config ms first second)
      (summarize config ms' first second) := by
  have hresults : (resultsOf first second ms).Perm (resultsOf first second ms') := h.filter _
  obtain ⟨hsame, hrefused⟩ := summarize_of_resultsOf config hresults
  by_cases hrepeats : Repeats first ms ∨ Repeats second ms
  · obtain ⟨e, -, he, ⟨_, _, _, hms⟩, ⟨_, _, _, hms'⟩⟩ := hrefused hrepeats
    rw [hms, hms']
    exact .error (.repeated he)
  · rw [hsame (not_or.mp hrepeats)]
    cases summarize config ms' first second with
    | ok s => exact .ok rfl
    | error fault => exact .error (.same fault)

/-- Nor do the comparisons of all pairs. -/
theorem alike_summarizeAll (config : RatioConfig) (h : (ms.map unplaced).Perm (ms'.map unplaced)) :
    Alike (SameRefusal ms) (List.Forall₂ Eq) (summarizeAll config ms)
      (summarizeAll config ms') := by
  unfold summarizeAll
  rw [Measurement.extractors_congr_of_unplaced h]
  exact Alike.mapM fun _ _ => alike_summarize_of_unplaced h

/-- The comparison of two extractors depends on their results alone: not on the order of the list,
not on where anything was read from, and not on the results of others. Only if one of the two has a
repeated result may different ones be told of, and they are of the same extractor then. The same
holds of the comparisons of all pairs. -/
theorem summaries_depend_on_results (config : RatioConfig) (ms ms' : List (Measurement α)) :
    (∀ first second, (resultsOf first second ms).Perm (resultsOf first second ms') →
      (¬ Repeats first ms ∧ ¬ Repeats second ms →
        summarize config ms first second = summarize config ms' first second) ∧
      (Repeats first ms ∨ Repeats second ms → ∃ e, (e = first ∨ e = second) ∧ Repeats e ms ∧
        RefusesRepeated e (summarize config ms first second) ∧
          RefusesRepeated e (summarize config ms' first second))) ∧
      ((ms.map unplaced).Perm (ms'.map unplaced) →
        summarizeAll config ms = summarizeAll config ms' ∨
          ∃ e, Repeats e ms ∧ RefusesRepeated e (summarizeAll config ms) ∧
            RefusesRepeated e (summarizeAll config ms')) := by
  refine ⟨fun first second => summarize_of_resultsOf config, fun h => ?_⟩
  generalize hall : summarizeAll config ms = outcome
  generalize hall' : summarizeAll config ms' = outcome'
  have halike := alike_summarizeAll config h
  rw [hall, hall'] at halike
  cases halike with
  | ok hsame =>
    rw [List.forall₂_eq_eq_eq] at hsame
    rw [hsame]
    exact .inl rfl
  | error hrefusal =>
    cases hrefusal with
    | same fault => exact .inl rfl
    | repeated he => exact .inr ⟨_, he, ⟨_, _, _, rfl⟩, ⟨_, _, _, rfl⟩⟩

end ExtractionBench.Comparison
