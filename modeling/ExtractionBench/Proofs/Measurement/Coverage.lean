import Mathlib.Tactic
import ExtractionBench.Measurement.Coverage
import ExtractionBench.Proofs.Measurement.Index

/-!
# Coverage

The gaps of an extractor are the benchmarks that it has no result for while some extractor has one.
-/

namespace ExtractionBench.Measurement

variable {α : Type} {ms : List (Measurement α)} {extractor name : String}

/-- An extractor has a result for a benchmark. -/
def Covers (ms : List (Measurement α)) (extractor name : String) : Prop :=
  ∃ m ∈ ms, m.extractor = extractor ∧ m.name = name

theorem Covers.mem_extractors (h : Covers ms extractor name) : extractor ∈ extractors ms := by
  obtain ⟨m, hm, he, -⟩ := h
  exact mem_extractors_iff.mpr ⟨m, hm, he⟩

/-- Nothing is found among an extractor's results exactly if it has none for the benchmark. -/
theorem find?_ofExtractor_eq_none_iff :
    find? name (ofExtractor extractor ms) = none ↔ ¬ Covers ms extractor name := by
  simp only [find?_eq_none_iff, mem_ofExtractor, Covers]
  constructor
  · rintro h ⟨m, hm, he, hname⟩
    exact h m ⟨hm, he⟩ hname
  · rintro h m ⟨hm, he⟩ hname
    exact h ⟨m, hm, he, hname⟩

theorem exists_find?_ofExtractor_iff :
    (∃ m, find? name (ofExtractor extractor ms) = some m) ↔ Covers ms extractor name := by
  rw [← Option.ne_none_iff_exists', ne_eq, find?_ofExtractor_eq_none_iff, not_not]

theorem mem_missingFor_iff :
    name ∈ missingFor extractor ms ↔ (∃ e, Covers ms e name) ∧ ¬ Covers ms extractor name := by
  unfold missingFor
  rw [List.mem_filter, mem_benchmarks_iff, Option.isNone_iff_eq_none, find?_ofExtractor_eq_none_iff]
  refine and_congr_left fun _ => ?_
  constructor
  · rintro ⟨m, hm, hname⟩
    exact ⟨m.extractor, m, hm, rfl, hname⟩
  · rintro ⟨_, m, hm, _, hname⟩
    exact ⟨m, hm, hname⟩

/-- An extractor is listed with everything that it lacks. -/
theorem mem_coverageGaps_iff {names : List String} :
    (extractor, names) ∈ coverageGaps ms ↔
      extractor ∈ extractors ms ∧ names = missingFor extractor ms ∧ names ≠ [] := by
  unfold coverageGaps
  simp only [List.mem_filter, List.mem_map, Prod.mk.injEq, Bool.not_eq_true',
    List.isEmpty_eq_false_iff]
  constructor
  · rintro ⟨⟨e, he, rfl, rfl⟩, hne⟩
    exact ⟨he, rfl, hne⟩
  · rintro ⟨he, rfl, hne⟩
    exact ⟨⟨extractor, he, rfl, rfl⟩, hne⟩

/-- A benchmark that an extractor lacks is listed as a gap of it. -/
theorem exists_gap (he : extractor ∈ extractors ms) (h : name ∈ missingFor extractor ms) :
    ∃ names, (extractor, names) ∈ coverageGaps ms ∧ name ∈ names :=
  ⟨_, mem_coverageGaps_iff.mpr ⟨he, rfl, List.ne_nil_of_mem h⟩, h⟩

/-- There are no gaps exactly if every extractor has a result for every benchmark that one has a
result for. -/
theorem coverageGaps_eq_nil_iff :
    coverageGaps ms = [] ↔
      ∀ e ∈ extractors ms, ∀ e' name, Covers ms e' name → Covers ms e name := by
  constructor
  · intro h e he e' name hcov
    by_contra hno
    obtain ⟨names, hgap, -⟩ := exists_gap he (mem_missingFor_iff.mpr ⟨⟨e', hcov⟩, hno⟩)
    rw [h] at hgap
    exact absurd hgap (by simp)
  · intro h
    refine List.eq_nil_iff_forall_not_mem.mpr fun ⟨e, names⟩ hgap => ?_
    obtain ⟨he, rfl, hne⟩ := mem_coverageGaps_iff.mp hgap
    obtain ⟨name, hname⟩ := List.exists_mem_of_ne_nil _ hne
    obtain ⟨⟨e', hcov⟩, hno⟩ := mem_missingFor_iff.mp hname
    exact hno (h e he e' name hcov)

end ExtractionBench.Measurement
