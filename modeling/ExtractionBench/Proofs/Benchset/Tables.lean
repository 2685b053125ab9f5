import Mathlib.Tactic
import ExtractionBench.Benchset.Tables
import ExtractionBench.Proofs.Exact
import ExtractionBench.Proofs.Measurement.Index

/-!
# The cells of tables by suite

A table is filled result by result, each of which changes the cell of its suite and extractor and no
other. So the value in a cell is made from the results of that suite and extractor alone, in their
order, and there is no cell without results. The ratios stand in the cells of the sums.
-/

namespace ExtractionBench.Benchset

open Ascending (ByName)
open Measurement (ofExtractor)

variable {α β : Type} {grid : Grid β} {suite extractor : String} {v : β}

/-! ## Looking up a cell -/

/-- The suites and the extractors of each suite are in ascending order, and no suite is empty. -/
structure Ordered (grid : Grid β) : Prop where
  suites : ByName grid
  extractors : ∀ row ∈ grid, ByName row.2
  nonempty : ∀ row ∈ grid, row.2 ≠ []

theorem ordered_nil : Ordered ([] : Grid β) := ⟨List.Pairwise.nil, by simp, by simp⟩

/-- In an ordered table a value is found exactly if it stands in the row of its suite. -/
theorem cell?_eq_some_iff (h : Ordered grid) :
    cell? suite extractor grid = some v ↔ ∃ row, (suite, row) ∈ grid ∧ (extractor, v) ∈ row := by
  unfold cell?
  rw [Option.bind_eq_some_iff]
  constructor
  · rintro ⟨row, hrow, hv⟩
    have hmem := (Ascending.find?_name_eq_some_iff h.suites).mp hrow
    exact ⟨row, hmem, (Ascending.find?_name_eq_some_iff (h.extractors _ hmem)).mp hv⟩
  · rintro ⟨row, hmem, hv⟩
    exact ⟨row, (Ascending.find?_name_eq_some_iff h.suites).mpr hmem,
      (Ascending.find?_name_eq_some_iff (h.extractors _ hmem)).mpr hv⟩

/-! ## Changing a cell -/

section Alter

variable {value : Option β → β}

theorem ordered_alter (h : Ordered grid) : Ordered (alter suite extractor value grid) := by
  have hrows : ∀ row ∈ alter suite extractor value grid, ByName row.2 ∧ row.2 ≠ [] := by
    intro row hrow
    rcases Ascending.mem_upsert hrow with hold | rfl | ⟨old, hold, hnew⟩
    · exact ⟨h.extractors row hold, h.nonempty row hold⟩
    · exact ⟨Ascending.byName_upsert List.Pairwise.nil, Ascending.upsert_ne_nil⟩
    · rw [hnew]
      exact ⟨Ascending.byName_upsert (h.extractors _ hold), Ascending.upsert_ne_nil⟩
  exact ⟨Ascending.byName_upsert h.suites, fun row hrow => (hrows row hrow).1,
    fun row hrow => (hrows row hrow).2⟩

/-- The row of a suite, which is empty if the suite has none. -/
def rowOf (suite : String) (grid : Grid β) : List (String × β) :=
  (Ascending.find? Ascending.nameBefore suite grid).getD []

theorem byName_rowOf (h : Ordered grid) : ByName (rowOf suite grid) := by
  unfold rowOf
  cases hrow : Ascending.find? Ascending.nameBefore suite grid with
  | none => exact List.Pairwise.nil
  | some row => exact h.extractors _ ((Ascending.find?_name_eq_some_iff h.suites).mp hrow)

theorem cell?_eq_find?_rowOf :
    cell? suite extractor grid =
      Ascending.find? Ascending.nameBefore extractor (rowOf suite grid) := by
  unfold cell? rowOf
  cases Ascending.find? Ascending.nameBefore suite grid with
  | none => rfl
  | some row => rfl

theorem rowOf_alter_self (h : Ordered grid) :
    rowOf suite (alter suite extractor value grid) =
      Ascending.upsert Ascending.nameBefore extractor value (rowOf suite grid) := by
  rw [rowOf, alter, Ascending.find?_upsert_self Ascending.weakOrder_nameBefore h.suites]
  rfl

theorem rowOf_alter_of_ne {suite' : String} (hne : suite' ≠ suite) :
    rowOf suite' (alter suite extractor value grid) = rowOf suite' grid := by
  rw [rowOf, alter, Ascending.find?_upsert_name_of_ne hne]
  rfl

theorem cell?_alter_self (h : Ordered grid) :
    cell? suite extractor (alter suite extractor value grid) =
      some (value (cell? suite extractor grid)) := by
  rw [cell?_eq_find?_rowOf, rowOf_alter_self h,
    Ascending.find?_upsert_self Ascending.weakOrder_nameBefore (byName_rowOf h),
      ← cell?_eq_find?_rowOf]

/-- The other cells of a changed table keep their values. -/
theorem cell?_alter_of_ne (h : Ordered grid) {suite' extractor' : String}
    (hne : ¬ (suite' = suite ∧ extractor' = extractor)) :
    cell? suite' extractor' (alter suite extractor value grid) = cell? suite' extractor' grid := by
  rw [cell?_eq_find?_rowOf, cell?_eq_find?_rowOf]
  by_cases hsuite : suite' = suite
  · subst hsuite
    have hextractor : extractor' ≠ extractor := fun heq => hne ⟨rfl, heq⟩
    rw [rowOf_alter_self h, Ascending.find?_upsert_name_of_ne hextractor]
  · rw [rowOf_alter_of_ne hsuite]

end Alter

/-! ## Filling a table -/

/-- The suite is read off the name. -/
theorem suiteOf_congr {m m' : Measurement α} (h : m.name = m'.name) : suiteOf m = suiteOf m' := by
  unfold suiteOf Measurement.benchset?
  rw [h]

/-- The results of an extractor in a suite, in order. -/
def inSuite (suite extractor : String) (ms : List (Measurement α)) : List (Measurement α) :=
  (ofExtractor extractor ms).filter fun m => suiteOf m == suite

theorem mem_inSuite {ms : List (Measurement α)} {m : Measurement α} :
    m ∈ inSuite suite extractor ms ↔ m ∈ ms ∧ m.extractor = extractor ∧ suiteOf m = suite := by
  rw [inSuite, List.mem_filter, Measurement.mem_ofExtractor, beq_iff_eq, and_assoc]

theorem inSuite_ne_nil_iff {ms : List (Measurement α)} :
    inSuite suite extractor ms ≠ [] ↔ ∃ m ∈ ms, m.extractor = extractor ∧ suiteOf m = suite := by
  constructor
  · intro hne
    obtain ⟨m, hm⟩ := List.exists_mem_of_ne_nil _ hne
    exact ⟨m, mem_inSuite.mp hm⟩
  · rintro ⟨m, hm⟩
    exact List.ne_nil_of_mem (mem_inSuite.mpr hm)

/-- A further result is the last one of its suite and extractor, and of no other. -/
theorem inSuite_concat (ms : List (Measurement α)) (m : Measurement α) :
    inSuite suite extractor (ms ++ [m]) =
      inSuite suite extractor ms ++ if suite = suiteOf m ∧ extractor = m.extractor then [m]
        else [] := by
  unfold inSuite ofExtractor
  rw [List.filter_append, List.filter_append]
  congr 1
  by_cases hextractor : m.extractor = extractor
  · by_cases hsuite : suiteOf m = suite
    · simp [hextractor, hsuite]
    · simp [hextractor, hsuite, Ne.symm hsuite]
  · simp [hextractor, Ne.symm hextractor]

/-- The table that results are entered into one after the other, each by a step of its own. -/
def tabulate (step : Measurement α → Option β → β) (ms : List (Measurement α)) : Grid β :=
  ms.foldl (fun grid m => alter (suiteOf m) m.extractor (step m) grid) []

/-- A further result changes the cell of its suite and extractor. -/
theorem tabulate_concat (step : Measurement α → Option β → β) (ms : List (Measurement α))
    (m : Measurement α) :
    tabulate step (ms ++ [m]) = alter (suiteOf m) m.extractor (step m) (tabulate step ms) := by
  unfold tabulate
  rw [List.foldl_append, List.foldl_cons, List.foldl_nil]

/-- Whatever is tabulated is ordered. -/
theorem ordered_tabulate (step : Measurement α → Option β → β) (ms : List (Measurement α)) :
    Ordered (tabulate step ms) := by
  induction ms using List.reverseRecOn with
  | nil => exact ordered_nil
  | append_singleton ms m ih =>
    rw [tabulate_concat]
    exact ordered_alter ih

/-- A cell holds what the results of its suite and extractor make, one after the other. -/
theorem cell?_tabulate (step : Measurement α → Option β → β) (ms : List (Measurement α)) :
    cell? suite extractor (tabulate step ms) =
      (inSuite suite extractor ms).foldl (fun cell m => some (step m cell)) none := by
  induction ms using List.reverseRecOn with
  | nil => rfl
  | append_singleton ms m ih =>
    rw [tabulate_concat, inSuite_concat, List.foldl_append, ← ih]
    split_ifs with hsame
    · obtain ⟨rfl, rfl⟩ := hsame
      exact cell?_alter_self (ordered_tabulate step ms)
    · exact cell?_alter_of_ne (ordered_tabulate step ms) hsame

/-- If the steps of some results, one after the other, come to a value of all of them, then that of
the results of a suite and an extractor stands in their cell. -/
theorem cell?_tabulate_eq {step : Measurement α → Option β → β} {value : List (Measurement α) → β}
    (hstep : ∀ xs m, step m (if xs = [] then none else some (value xs)) = value (xs ++ [m]))
    (ms : List (Measurement α)) :
    cell? suite extractor (tabulate step ms) =
      if inSuite suite extractor ms = [] then none
        else some (value (inSuite suite extractor ms)) := by
  rw [cell?_tabulate]
  induction inSuite suite extractor ms using List.reverseRecOn with
  | nil => rfl
  | append_singleton xs m ih =>
    rw [List.foldl_append, ih,
      if_neg (List.append_ne_nil_of_right_ne_nil xs (List.cons_ne_nil m [])), ← hstep]
    rfl

/-! ## Ratios -/

section Ratios

variable [Scalar α] {ms : List (Measurement α)} {baseline : String} {extractors : List String}
  {row row' : List (String × α)}

theorem dagSums_eq_tabulate (ms : List (Measurement α)) :
    dagSums ms = tabulate (fun m sum => sum.getD ((0 : Nat) : α) + m.dag) ms := rfl

theorem ordered_dagSums (ms : List (Measurement α)) : Ordered (dagSums ms) := ordered_tabulate _ ms

/-- The sums of some extractors in a row, each divided by a sum. -/
def quotients (extractors : List String) (base : α) (row : List (String × α)) : List (String × α) :=
  (row.filter fun entry => extractors.contains entry.1).map fun entry => (entry.1, entry.2 / base)

/-- The quotients of a row are those of the extractors that are asked for and have a sum. -/
theorem mem_quotients_iff {base q : α} :
    (extractor, q) ∈ quotients extractors base row ↔
      extractor ∈ extractors ∧ ∃ sum, (extractor, sum) ∈ row ∧ q = sum / base := by
  unfold quotients
  rw [List.mem_map]
  constructor
  · rintro ⟨⟨e, sum⟩, hmem, heq⟩
    obtain ⟨rfl, rfl⟩ := Prod.mk.inj heq
    obtain ⟨hrow, hkept⟩ := List.mem_filter.mp hmem
    exact ⟨by simpa using hkept, sum, hrow, rfl⟩
  · rintro ⟨hkept, sum, hrow, rfl⟩
    exact ⟨(extractor, sum), List.mem_filter.mpr ⟨hrow, by simpa using hkept⟩, rfl⟩

theorem byName_quotients {base : α} (h : ByName row) : ByName (quotients extractors base row) := by
  unfold ByName quotients
  rw [List.map_map]
  exact h.sublist (List.filter_sublist.map _)

/-- The row of ratios that is made from a row of sums, if any. -/
def ratiosRow (baseline : String) (extractors : List String) (entry : String × List (String × α)) :
    Option (String × List (String × α)) :=
  match Ascending.find? Ascending.nameBefore baseline entry.2 with
  | none => none
  | some base =>
    if base == ((0 : Nat) : α) then none
    else
      match entry.2.filter fun (extractor, _) => extractors.contains extractor with
      | [] => none
      | kept => some (entry.1, kept.map fun (extractor, sum) => (extractor, sum / base))

theorem dagRatios_eq_filterMap :
    dagRatios ms baseline extractors = (dagSums ms).filterMap (ratiosRow baseline extractors) := rfl

/-- A suite has ratios if the baseline has a sum for it that is not zero, and some extractor has one
too. -/
theorem ratiosRow_eq_some_iff {suite' : String} :
    ratiosRow baseline extractors (suite, row) = some (suite', row') ↔
      ∃ base, Ascending.find? Ascending.nameBefore baseline row = some base ∧
        (base == ((0 : Nat) : α)) = false ∧
        row' ≠ [] ∧ suite' = suite ∧ row' = quotients extractors base row := by
  constructor
  · intro h
    unfold ratiosRow at h
    split at h
    · cases h
    · rename_i base hbase
      split_ifs at h with hzero
      split at h
      · cases h
      · rename_i hkept
        cases h
        exact ⟨base, hbase, Bool.eq_false_iff.mpr hzero, mt List.map_eq_nil_iff.mp hkept, rfl, rfl⟩
  · rintro ⟨base, hbase, hzero, hne, rfl, rfl⟩
    unfold ratiosRow
    simp only [hbase, hzero, Bool.false_eq_true, if_false]
    split
    · rename_i hkept
      have hnone : quotients extractors base row = [] := List.map_eq_nil_iff.mpr hkept
      exact absurd hnone hne
    · rfl

/-- The rows of ratios are those of the sums, as far as they have any quotients. -/
theorem mem_dagRatios_iff :
    (suite, row') ∈ dagRatios ms baseline extractors ↔
      ∃ row base, (suite, row) ∈ dagSums ms ∧ (baseline, base) ∈ row ∧
        (base == ((0 : Nat) : α)) = false ∧
        row' ≠ [] ∧ row' = quotients extractors base row := by
  rw [dagRatios_eq_filterMap, List.mem_filterMap]
  have hfind : ∀ {row base}, (suite, row) ∈ dagSums ms →
      (Ascending.find? Ascending.nameBefore baseline row = some base ↔ (baseline, base) ∈ row) :=
        fun hmem =>
    Ascending.find?_name_eq_some_iff ((ordered_dagSums ms).extractors _ hmem)
  constructor
  · rintro ⟨⟨suite', row⟩, hmem, hrow⟩
    obtain ⟨base, hbase, hzero, hne, rfl, rfl⟩ := ratiosRow_eq_some_iff.mp hrow
    exact ⟨row, base, hmem, (hfind hmem).mp hbase, hzero, hne, rfl⟩
  · rintro ⟨row, base, hmem, hbase, hzero, hne, rfl⟩
    exact ⟨(suite, row), hmem,
      ratiosRow_eq_some_iff.mpr ⟨base, (hfind hmem).mpr hbase, hzero, hne, rfl, rfl⟩⟩

/-- The ratios keep the order of the sums, and suites without ratios have no row. -/
theorem ordered_dagRatios : Ordered (dagRatios ms baseline extractors) := by
  have hrows : ∀ entry ∈ dagRatios ms baseline extractors, ByName entry.2 ∧ entry.2 ≠ [] := by
    rintro ⟨suite, row'⟩ hmem
    obtain ⟨row, base, hrow, -, -, hne, rfl⟩ := mem_dagRatios_iff.mp hmem
    exact ⟨byName_quotients ((ordered_dagSums ms).extractors _ hrow), hne⟩
  refine ⟨?_, fun entry hmem => (hrows entry hmem).1, fun entry hmem => (hrows entry hmem).2⟩
  rw [ByName, dagRatios_eq_filterMap, List.pairwise_map, List.pairwise_filterMap]
  refine (List.pairwise_map.mp (ordered_dagSums ms).suites).imp ?_
  rintro ⟨a, _⟩ ⟨b, _⟩ hab ⟨a', _⟩ ha ⟨b', _⟩ hb
  obtain ⟨-, -, -, -, rfl, -⟩ := ratiosRow_eq_some_iff.mp ha
  obtain ⟨-, -, -, -, rfl, -⟩ := ratiosRow_eq_some_iff.mp hb
  exact hab

/-- A cell is the quotient of two sums: of the extractor and of the baseline, for the same suite. -/
theorem cell?_dagRatios_eq_some_iff {q : α} :
    cell? suite extractor (dagRatios ms baseline extractors) = some q ↔
      extractor ∈ extractors ∧ ∃ sum base, cell? suite extractor (dagSums ms) = some sum ∧
        cell? suite baseline (dagSums ms) = some base ∧ (base == ((0 : Nat) : α)) = false ∧
        q = sum / base := by
  simp only [cell?_eq_some_iff ordered_dagRatios, cell?_eq_some_iff (ordered_dagSums ms),
    mem_dagRatios_iff]
  constructor
  · rintro ⟨_, ⟨row, base, hrow, hbase, hzero, -, rfl⟩, hq⟩
    obtain ⟨hextractor, sum, hsum, rfl⟩ := mem_quotients_iff.mp hq
    exact ⟨hextractor, sum, base, ⟨row, hrow, hsum⟩, ⟨row, hrow, hbase⟩, hzero, rfl⟩
  · rintro ⟨hextractor, sum, base, ⟨row, hrow, hsum⟩, ⟨row', hrow', hbase⟩, hzero, rfl⟩
    -- A suite has one row, so both sums stand in the same one.
    have hfind := (Ascending.find?_name_eq_some_iff (ordered_dagSums ms).suites).mpr hrow
    have hfind' := (Ascending.find?_name_eq_some_iff (ordered_dagSums ms).suites).mpr hrow'
    have hsame : row' = row := Option.some.inj (hfind'.symm.trans hfind)
    subst hsame
    have hq : (extractor, sum / base) ∈ quotients extractors base row' :=
      mem_quotients_iff.mpr ⟨hextractor, sum, hsum, rfl⟩
    exact ⟨_, ⟨row', base, hrow, hbase, hzero, List.ne_nil_of_mem hq, rfl⟩, hq⟩

end Ratios

/-! ## Exact sums -/

section Exact

variable {ms : List (Measurement Rat)} {baseline : String} {extractors : List String}

/-- The dag costs of an extractor in a suite, added up. -/
def dagTotal (suite extractor : String) (ms : List (Measurement Rat)) : Rat :=
  ((inSuite suite extractor ms).map (·.dag)).sum

/-- In exact arithmetic a sum is there exactly if there are results, and is their total. -/
theorem cell?_dagSums_eq_some_iff {sum : Rat} :
    cell? suite extractor (dagSums ms) = some sum ↔
      inSuite suite extractor ms ≠ [] ∧ sum = dagTotal suite extractor ms := by
  have hstep : ∀ (xs : List (Measurement Rat)) (m : Measurement Rat),
      (if xs = [] then none else some (xs.map (·.dag)).sum).getD ((0 : Nat) : Rat) + m.dag =
        ((xs ++ [m]).map (·.dag)).sum := by
    intro xs m
    split_ifs with hnil
    · simp [hnil]
    · simp
  rw [dagSums_eq_tabulate, cell?_tabulate_eq hstep, dagTotal]
  split_ifs with hnil
  · simp [hnil]
  · simp [hnil, eq_comm]

/-- There is a cell for each of the extractors that has results in a suite where the baseline has
costs. -/
theorem cell?_dagRatios_rat_eq_some_iff {q : Rat} :
    cell? suite extractor (dagRatios ms baseline extractors) = some q ↔
      extractor ∈ extractors ∧ inSuite suite extractor ms ≠ [] ∧ dagTotal suite baseline ms ≠ 0 ∧
        q = dagTotal suite extractor ms / dagTotal suite baseline ms := by
  rw [cell?_dagRatios_eq_some_iff]
  simp only [cell?_dagSums_eq_some_iff]
  constructor
  · rintro ⟨hextractor, _, _, ⟨hne, rfl⟩, ⟨-, rfl⟩, hzero, rfl⟩
    exact ⟨hextractor, hne, by simpa using hzero, rfl⟩
  · rintro ⟨hextractor, hne, hzero, rfl⟩
    have hbaseline : inSuite suite baseline ms ≠ [] := by
      intro hnil
      exact hzero (by simp [dagTotal, hnil])
    exact ⟨hextractor, _, _, ⟨hne, rfl⟩, ⟨hbaseline, rfl⟩, by simpa using hzero, rfl⟩

end Exact

end ExtractionBench.Benchset
