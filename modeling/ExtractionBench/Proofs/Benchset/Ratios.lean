import Mathlib.Tactic
import ExtractionBench.Proofs.Benchset.Tables

/-!
# Ratios against any baseline

A table by suite is known by its cells. The cells of a table of ratios are quotients of exact sums,
so the order of the results does not matter, and going from one baseline to another is a
multiplication.
-/

namespace ExtractionBench.Benchset

section Cells

variable {β : Type} {grid grid' : Grid β}

/-- In an ordered table the row of a suite is found unless it is empty. -/
theorem find?_eq_rowOf (h : Ordered grid) (suite : String) :
    Ascending.find? Ascending.nameBefore suite grid =
      if rowOf suite grid = [] then none else some (rowOf suite grid) := by
  unfold rowOf
  cases hrow : Ascending.find? Ascending.nameBefore suite grid with
  | none => rfl
  | some row =>
    have hne : row ≠ [] := h.nonempty _ ((Ascending.find?_name_eq_some_iff h.suites).mp hrow)
    rw [Option.getD_some, if_neg hne]

/-- Ordered tables with the same cells are the same. -/
theorem ordered_ext (h : Ordered grid) (h' : Ordered grid')
    (hcell : ∀ suite e, cell? suite e grid = cell? suite e grid') : grid = grid' := by
  refine Ascending.byName_ext h.suites h'.suites fun suite => ?_
  have hrow : rowOf suite grid = rowOf suite grid' := by
    refine Ascending.byName_ext (byName_rowOf h) (byName_rowOf h') fun e => ?_
    rw [← cell?_eq_find?_rowOf, ← cell?_eq_find?_rowOf, hcell]
  rw [find?_eq_rowOf h, find?_eq_rowOf h', hrow]

end Cells

variable {ms ms' : List (Measurement Rat)} {baseline e e' suite : String}
  {extractors others : List String} {p q : Rat}

theorem inSuite_perm (hperm : ms'.Perm ms) : (inSuite suite e ms').Perm (inSuite suite e ms) :=
  (hperm.filter _).filter _

theorem dagTotal_perm (hperm : ms'.Perm ms) : dagTotal suite e ms' = dagTotal suite e ms :=
  ((inSuite_perm hperm).map _).sum_eq

/-- The order of results makes no difference to the ratios. -/
theorem dagRatios_perm (hperm : ms'.Perm ms) :
    dagRatios ms' baseline extractors = dagRatios ms baseline extractors := by
  refine ordered_ext ordered_dagRatios ordered_dagRatios fun suite e => ?_
  have hnil : inSuite suite e ms' = [] ↔ inSuite suite e ms = [] := by
    rw [← List.length_eq_zero_iff, ← List.length_eq_zero_iff, (inSuite_perm hperm).length_eq]
  ext q
  rw [cell?_dagRatios_rat_eq_some_iff, cell?_dagRatios_rat_eq_some_iff, ne_eq, ne_eq, hnil,
    dagTotal_perm hperm, dagTotal_perm hperm]

/-- A ratio against one extractor, times the ratio of that one against a baseline, is the ratio
against the baseline. -/
theorem cell?_dagRatios_mul (hp : cell? suite e (dagRatios ms baseline extractors) = some p)
    (hq : cell? suite e' (dagRatios ms e others) = some q) :
    cell? suite e' (dagRatios ms baseline others) = some (p * q) := by
  obtain ⟨-, -, hbaseline, rfl⟩ := cell?_dagRatios_rat_eq_some_iff.mp hp
  obtain ⟨hother, hresults, htotal, rfl⟩ := cell?_dagRatios_rat_eq_some_iff.mp hq
  refine cell?_dagRatios_rat_eq_some_iff.mpr ⟨hother, hresults, hbaseline, ?_⟩
  field_simp

theorem inSuite_ne_nil_of_dagTotal (h : dagTotal suite e ms ≠ 0) : inSuite suite e ms ≠ [] := by
  intro hnil
  rw [dagTotal, hnil] at h
  exact h rfl

/-- What a table of ratios holds, over exact sums. There is a cell for each of the extractors that
has results in a suite where the dag costs of the baseline do not add up to zero, and its value is
the quotient of both totals. The suites and their extractors are in ascending order, each once, and
no row is empty. The order of the results does not matter. Ratios against different baselines
multiply. -/
theorem dagRatios_exact (ms : List (Measurement Rat)) (baseline : String)
    (extractors : List String) :
    (∀ suite e q, cell? suite e (dagRatios ms baseline extractors) = some q ↔
      e ∈ extractors ∧ (∃ m ∈ ms, m.extractor = e ∧ suiteOf m = suite) ∧
        (∃ m ∈ ms, m.extractor = baseline ∧ suiteOf m = suite) ∧ dagTotal suite baseline ms ≠ 0 ∧
          q = dagTotal suite e ms / dagTotal suite baseline ms) ∧
    Ordered (dagRatios ms baseline extractors) ∧
    (∀ row ∈ dagRatios ms baseline extractors, row.2 ≠ []) ∧
    (∀ ms', ms'.Perm ms → dagRatios ms' baseline extractors = dagRatios ms baseline extractors) ∧
    ∀ others suite e e' p q, cell? suite e (dagRatios ms baseline extractors) = some p →
      cell? suite e' (dagRatios ms e others) = some q →
        cell? suite e' (dagRatios ms baseline others) = some (p * q) := by
  refine ⟨?_, ordered_dagRatios, ordered_dagRatios.nonempty, ?_, ?_⟩
  · intro suite e q
    rw [cell?_dagRatios_rat_eq_some_iff, ← inSuite_ne_nil_iff, ← inSuite_ne_nil_iff]
    constructor
    · rintro ⟨hextractor, hresults, htotal, hq⟩
      exact ⟨hextractor, hresults, inSuite_ne_nil_of_dagTotal htotal, htotal, hq⟩
    · rintro ⟨hextractor, hresults, -, htotal, hq⟩
      exact ⟨hextractor, hresults, htotal, hq⟩
  · intro ms' hperm
    exact dagRatios_perm hperm
  · intro others suite e e' p q hp hq
    exact cell?_dagRatios_mul hp hq

/-- Three extractors on benchmarks of a suite, and one benchmark without a suite. -/
def threeExtractors : List (Measurement Rat) :=
  [⟨"data/egg/a.json", "ilp", 1, 4, 5, ⟨""⟩, ⟨""⟩⟩,
    ⟨"data/egg/a.json", "beam", 1, 5, 5, ⟨""⟩, ⟨""⟩⟩, ⟨"plain.json", "ilp", 1, 7, 5, ⟨""⟩, ⟨""⟩⟩,
    ⟨"data/egg/b.json", "beam", 1, 4, 5, ⟨""⟩, ⟨""⟩⟩,
    ⟨"data/egg/b.json", "greedy", 1, 12, 5, ⟨""⟩, ⟨""⟩⟩,
      ⟨"data/egg/b.json", "ilp", 1, 2, 5, ⟨""⟩, ⟨""⟩⟩]

theorem threeExtractors_multiply :
    cell? "egg" "beam" (dagRatios threeExtractors "ilp" ["beam", "greedy"]) = some (3 / 2) ∧
      cell? "egg" "greedy" (dagRatios threeExtractors "beam" ["beam", "greedy"]) = some (4 / 3) ∧
      cell? "egg" "greedy" (dagRatios threeExtractors "ilp" ["beam", "greedy"]) =
        some (3 / 2 * (4 / 3)) := by
  have hbeam :
      cell? "egg" "beam" (dagRatios threeExtractors "ilp" ["beam", "greedy"]) = some (3 / 2) := by
    decide +kernel
  have hgreedy : cell? "egg" "greedy" (dagRatios threeExtractors "beam" ["beam", "greedy"]) =
      some (4 / 3) := by
    decide +kernel
  obtain ⟨-, -, -, -, hmul⟩ := dagRatios_exact threeExtractors "ilp" ["beam", "greedy"]
  exact ⟨hbeam, hgreedy, hmul _ _ _ _ _ _ hbeam hgreedy⟩

end ExtractionBench.Benchset
