import Mathlib.Tactic
import ExtractionBench.Proofs.Benchset.Tables
import ExtractionBench.Proofs.Files.Spelling
import ExtractionBench.Proofs.Measurement.Grouping

/-!
# Results grouped and counted

Results are counted by suite and extractor, and each of them is counted once: a cell counts what
belongs to it, and the counts add up to all there is. So it is with groups by directory, which in
this stand beside the counts.
-/

namespace ExtractionBench.Benchset

open Measurement (byDirectory ofExtractor)

variable {α : Type} {grid : Grid Nat} {suite extractor e : String} {ms : List (Measurement α)}

/-! ## Counts -/

/-- Everything that stands in a table. -/
def values (grid : Grid Nat) : List Nat := grid.flatMap fun row => row.2.map (·.2)

/-- What stands in a table for an extractor, from suite to suite. -/
def valuesFor (extractor : String) (grid : Grid Nat) : List Nat :=
  grid.filterMap fun row => Ascending.find? Ascending.nameBefore extractor row.2

/-- One more result. -/
def oneMore (count : Option Nat) : Nat := count.getD 0 + 1

/-- A result adds one to the count of its suite and extractor. -/
theorem counts_concat (ms : List (Measurement α)) (m : Measurement α) :
    counts (ms ++ [m]) = alter (suiteOf m) m.extractor oneMore (counts ms) :=
  tabulate_concat (fun _ => oneMore) ms m

theorem ordered_counts (ms : List (Measurement α)) : Ordered (counts ms) :=
  ordered_tabulate (fun _ => oneMore) ms

/-- A count is there exactly if it is not zero, and is the number of results. -/
theorem cell?_counts_eq_some_iff {n : Nat} :
    cell? suite extractor (counts ms) = some n ↔
      n ≠ 0 ∧ n = (inSuite suite extractor ms).length := by
  have hstep : ∀ (xs : List (Measurement α)) (m : Measurement α),
      oneMore (if xs = [] then none else some xs.length) = (xs ++ [m]).length := by
    intro xs m
    split_ifs with hnil
    · simp [hnil, oneMore]
    · simp [oneMore]
  have hcell : cell? suite extractor (counts ms) =
      if inSuite suite extractor ms = [] then none else some (inSuite suite extractor ms).length :=
    cell?_tabulate_eq hstep ms
  rw [hcell]
  split_ifs with hnil
  · simp [hnil]
  · have hpos : (inSuite suite extractor ms).length ≠ 0 := mt List.length_eq_zero_iff.mp hnil
    constructor
    · intro h
      cases h
      exact ⟨hpos, rfl⟩
    · rintro ⟨-, rfl⟩
      rfl

/-- If a result adds as much to the weight of any row that it is counted in, then the rows weigh
what the results add, taken together. -/
theorem sum_map_counts (weight : List (String × Nat) → Nat) (added : Measurement α → Nat)
    (hnil : weight [] = 0)
    (hstep : ∀ m row, Ascending.ByName row →
      weight (Ascending.upsert Ascending.nameBefore m.extractor oneMore row) = weight row + added m)
    (ms : List (Measurement α)) :
    ((counts ms).map fun row => weight row.2).sum = (ms.map added).sum := by
  induction ms using List.reverseRecOn with
  | nil => rfl
  | append_singleton ms m ih =>
    have hnew :
        weight (Ascending.upsert Ascending.nameBefore m.extractor oneMore []) = added m := by
      rw [hstep m [] List.Pairwise.nil, hnil, Nat.zero_add]
    have hold : ∀ row ∈ counts ms,
        weight (Ascending.upsert Ascending.nameBefore m.extractor oneMore row.2) =
          weight row.2 + added m :=
      fun row hrow => hstep m row.2 ((ordered_counts ms).extractors row hrow)
    rw [counts_concat, alter, Ascending.sum_map_upsert weight (added m) hnew hold, ih,
      List.map_append, List.sum_append, List.map_singleton, List.sum_singleton]

/-- All results are counted. -/
theorem sum_values_counts (ms : List (Measurement α)) : (values (counts ms)).sum = ms.length := by
  have hstep : ∀ (m : Measurement α) (row : List (String × Nat)), Ascending.ByName row →
      ((Ascending.upsert Ascending.nameBefore m.extractor oneMore row).map (·.2)).sum =
        (row.map (·.2)).sum + 1 :=
    fun _ _ _ => Ascending.sum_map_upsert id 1 rfl fun _ _ => rfl
  have hsum := sum_map_counts (fun row => (row.map (·.2)).sum) (fun _ => 1) rfl hstep ms
  rw [values, List.flatMap, List.sum_flatten, List.map_map]
  exact hsum.trans (by simp)

theorem sum_valuesFor (e : String) (grid : Grid Nat) : (valuesFor e grid).sum =
    (grid.map fun row => (Ascending.find? Ascending.nameBefore e row.2).getD 0).sum := by
  induction grid with
  | nil => rfl
  | cons row grid ih =>
    rw [List.map_cons, List.sum_cons, ← ih, valuesFor, List.filterMap_cons]
    cases Ascending.find? Ascending.nameBefore e row.2 with
    | none => simp [valuesFor]
    | some n => simp [valuesFor]

/-- All results of an extractor are counted in its column. -/
theorem sum_valuesFor_counts (e : String) (ms : List (Measurement α)) :
    (valuesFor e (counts ms)).sum = (ofExtractor e ms).length := by
  have hstep : ∀ (m : Measurement α) (row : List (String × Nat)), Ascending.ByName row →
      (Ascending.find? Ascending.nameBefore e
        (Ascending.upsert Ascending.nameBefore m.extractor oneMore row)).getD 0 =
        (Ascending.find? Ascending.nameBefore e row).getD 0 + if m.extractor = e then 1 else 0 := by
    intro m row hrow
    split_ifs with he
    · subst he
      rw [Ascending.find?_upsert_self Ascending.weakOrder_nameBefore hrow]
      rfl
    · rw [Ascending.find?_upsert_name_of_ne (Ne.symm he), Nat.add_zero]
  have hones :
      (ms.map fun m => if m.extractor = e then 1 else 0).sum = (ofExtractor e ms).length := by
    induction ms with
    | nil => rfl
    | cons m ms ih =>
      rw [List.map_cons, List.sum_cons, ih, ofExtractor, ofExtractor, List.filter_cons]
      by_cases he : m.extractor = e
      · simp [he, Nat.add_comm]
      · simp [he]
  rw [sum_valuesFor, ← hones]
  exact sum_map_counts (fun row => (Ascending.find? Ascending.nameBefore e row).getD 0) _ rfl hstep
    ms

/-- An extractor has as many runtimes as results. -/
theorem length_runtimes [Scalar α] (ms : List (Measurement α)) (extractors : List String) :
    (runtimes ms extractors).map (fun series => (series.1, series.2.length)) =
      extractors.map fun e => (e, (ofExtractor e ms).length) := by
  rw [runtimes, List.map_map]
  refine List.map_congr_left fun e _ => ?_
  simp [Scalar.sorted]

/-- A table counts some results: by their suites, which is `(none)` where a name has none, and by
their extractors. There is a cell only where there are results, and each result is in one cell. -/
structure Counted [Scalar α] (ms : List (Measurement α)) (table : Grid Nat) : Prop where
  ordered : Ordered table
  cells : ∀ suite e n, cell? suite e table = some n ↔
    n ≠ 0 ∧ n = (ms.filter fun m => m.extractor == e && m.benchset?.getD "(none)" == suite).length
  noZero : 0 ∉ values table
  total : (values table).sum = ms.length
  /-- An extractor has as many runtimes as results, from whatever extractors the runtimes are asked
  for. -/
  series : ∀ extractors, (runtimes ms extractors).map (fun series => (series.1, series.2.length)) =
    extractors.map fun e => (e, (valuesFor e table).sum)

theorem counted_counts [Scalar α] (ms : List (Measurement α)) : Counted ms (counts ms) where
  ordered := ordered_counts ms
  cells := by
    intro suite e n
    rw [cell?_counts_eq_some_iff, inSuite, ofExtractor, List.filter_filter]
    simp only [Bool.and_comm]
    rfl
  noZero := by
    intro hzero
    obtain ⟨⟨suite, row⟩, hrow, hvalue⟩ := List.mem_flatMap.mp hzero
    obtain ⟨⟨e, _⟩, hmem, rfl⟩ := List.mem_map.mp hvalue
    have hcell : cell? suite e (counts ms) = some 0 :=
      (cell?_eq_some_iff (ordered_counts ms)).mpr ⟨row, hrow, hmem⟩
    exact (cell?_counts_eq_some_iff.mp hcell).1 rfl
  total := sum_values_counts ms
  series := by
    intro extractors
    simp only [length_runtimes, sum_valuesFor_counts]

/-! ## Groups and counts -/

/-- Neither grouping by directory nor counting by suite loses a result or takes one twice.
Directories are told apart by their components: empty steps and points do not count between others,
nor does a slash behind them, but a point in front makes another directory of one that does not
start so. -/
theorem grouped_and_counted [Scalar α] (ms : List (Measurement α)) :
    Measurement.Parted ms (byDirectory ms) ∧ Counted ms (counts ms) ∧
      (∀ x y step : String, step = "" ∨ step = "." →
        Path.same ⟨x ++ "/" ++ step ++ "/" ++ y⟩ ⟨x ++ "/" ++ y⟩ = true) ∧
      (∀ x : String, x ≠ "" → Path.same ⟨x ++ "/"⟩ ⟨x⟩ = true) ∧
      ∀ x : String, Path.same ⟨"./" ++ x⟩ ⟨x⟩ = true ↔
        (⟨x⟩ : Path).components.head? = some .here := by
  refine ⟨Measurement.parted_byDirectory ms, counted_counts ms, ?_, ?_, Path.same_here_iff⟩
  · intro x y step hstep
    exact Path.same_idle_step x y hstep
  · intro x hx
    exact Path.same_trailing_slash hx

end ExtractionBench.Benchset
