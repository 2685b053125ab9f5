import Mathlib.Algebra.BigOperators.Group.List.Basic
import Mathlib.Algebra.Order.Field.Rat
import Mathlib.Data.Rat.Floor
import Mathlib.Tactic
import ExtractionBench.Numeric.Exact
import ExtractionBench.Proofs.Traversal

/-!
# The exact reading

Over the rationals the operations of a scalar are those of the ordered field: a sum is the sum of
the list in any order, and sorting gives the ascending list.
-/

namespace ExtractionBench.Scalar

theorem sum_rat (xs : List Rat) : sum xs = xs.sum := by
  unfold sum
  rw [List.sum_eq_foldl]
  rfl

/-- No rational is a NaN, so the greater of two is their maximum. -/
theorem greatest_rat (a b : Rat) : greatest a b = max a b := by
  unfold greatest
  rw [isNaN_rat, isNaN_rat, max_def_lt]
  rfl

/-- No rational is a NaN, so the smaller of two is their minimum. -/
theorem least_rat (a b : Rat) : least a b = min a b := by
  unfold least
  rw [isNaN_rat, isNaN_rat, min_def_lt]
  show (if b < a then b else a) = if a < b then a else b
  split_ifs with h1 h2 h2
  · exact absurd h2 h1.not_gt
  · rfl
  · rfl
  · exact le_antisymm (not_lt.mp h1) (not_lt.mp h2)

theorem greatest_eq_max : (greatest : Rat → Rat → Rat) = max := funext₂ greatest_rat

theorem least_eq_min : (least : Rat → Rat → Rat) = min := funext₂ least_rat

/-- The greatest number so far is no less than any before it. -/
theorem le_foldl_greatest (start : Rat) (xs : List Rat) :
    start ≤ xs.foldl greatest start ∧ ∀ x ∈ xs, x ≤ xs.foldl greatest start := by
  rw [greatest_eq_max]
  exact le_foldl_max start xs

/-- The least number so far is no greater than any before it. -/
theorem foldl_least_le (start : Rat) (xs : List Rat) :
    xs.foldl least start ≤ start ∧ ∀ x ∈ xs, xs.foldl least start ≤ x := by
  rw [least_eq_min]
  exact (foldl_iff (p := (xs.foldl min start ≤ ·)) (fun _ _ => le_min_iff) start xs).mp le_rfl

theorem lt_foldl_least_iff {bound start : Rat} {xs : List Rat} :
    bound < xs.foldl least start ↔ bound < start ∧ ∀ x ∈ xs, bound < x := by
  rw [least_eq_min]
  exact foldl_iff (p := (bound < ·)) (fun _ _ => lt_min_iff) start xs

/-- The minimum is the least of the numbers. -/
theorem isLeast_minimum {xs : List Rat} (hne : xs ≠ []) : IsLeast {x | x ∈ xs} (minimum xs) := by
  cases xs with
  | nil => exact absurd rfl hne
  | cons x rest =>
    have hmin : (x :: rest).min? = some (minimum (x :: rest)) := by
      rw [List.min?_cons']
      simp [minimum, least_eq_min]
    exact List.min?_eq_some_iff.mp hmin

/-- The maximum is the greatest of the numbers. -/
theorem isGreatest_maximum {xs : List Rat} (hne : xs ≠ []) :
    IsGreatest {x | x ∈ xs} (maximum xs) := by
  cases xs with
  | nil => exact absurd rfl hne
  | cons x rest =>
    have hmax : (x :: rest).max? = some (maximum (x :: rest)) := by
      rw [List.max?_cons']
      simp [maximum, greatest_eq_max]
    exact List.max?_eq_some_iff.mp hmax

/-- The least reciprocal is that of the greatest number. -/
theorem minimum_inv {xs : List Rat} (hne : xs ≠ []) (hpos : ∀ x ∈ xs, 0 < x) :
    minimum (xs.map (·⁻¹)) = (maximum xs)⁻¹ := by
  obtain ⟨hmem, hbound⟩ := isGreatest_maximum hne
  have hinv : IsLeast {y | y ∈ xs.map (·⁻¹)} (maximum xs)⁻¹ := by
    refine ⟨List.mem_map.mpr ⟨_, hmem, rfl⟩, fun y hy => ?_⟩
    obtain ⟨x, hx, rfl⟩ := List.mem_map.mp hy
    exact inv_anti₀ (hpos x hx) (hbound hx)
  exact (isLeast_minimum (by simpa using hne)).unique hinv

/-- The greatest reciprocal is that of the least number. -/
theorem maximum_inv {xs : List Rat} (hne : xs ≠ []) (hpos : ∀ x ∈ xs, 0 < x) :
    maximum (xs.map (·⁻¹)) = (minimum xs)⁻¹ := by
  have hback : (xs.map (·⁻¹)).map (·⁻¹) = xs := by simp
  have hne' : xs.map (·⁻¹) ≠ [] := by simpa using hne
  have hpos' : ∀ y ∈ xs.map (·⁻¹), 0 < y := by
    intro y hy
    obtain ⟨x, hx, rfl⟩ := List.mem_map.mp hy
    exact inv_pos.mpr (hpos x hx)
  have hmin := minimum_inv hne' hpos'
  rw [hback] at hmin
  rw [hmin, inv_inv]

/-- Sorting by a number that every element has gives these numbers in ascending order. -/
theorem pairwise_mergeSort {β : Type} (key : β → Rat) (xs : List β) :
    (xs.mergeSort fun a b => totalLe (key a) (key b)).Pairwise fun a b => key a ≤ key b := by
  have h := @List.pairwise_mergeSort β (fun a b => totalLe (key a) (key b))
    (fun a b c hab hbc => by
      simp only [totalLe_rat, decide_eq_true_eq] at hab hbc ⊢
      exact hab.trans hbc)
    (fun a b => by simpa using le_total (key a) (key b)) xs
  exact h.imp fun hab => by simpa using hab

theorem sorted_perm (xs : List Rat) : (sorted xs).Perm xs := List.mergeSort_perm xs totalLe

theorem pairwise_sorted (xs : List Rat) : (sorted xs).Pairwise (· ≤ ·) := pairwise_mergeSort id xs

/-- There is one ascending list of given numbers. -/
theorem eq_sorted {xs ys : List Rat} (hperm : ys.Perm xs) (hys : ys.Pairwise (· ≤ ·)) :
    ys = sorted xs :=
  (hperm.trans (sorted_perm xs).symm).eq_of_pairwise (fun _ _ _ _ hab hba => le_antisymm hab hba)
    hys (pairwise_sorted xs)

/-- A map that keeps the order of numbers keeps them sorted. -/
theorem sorted_map {f : Rat → Rat} (hf : Monotone f) (xs : List Rat) :
    sorted (xs.map f) = (sorted xs).map f :=
  (eq_sorted ((sorted_perm xs).map f)
    (List.pairwise_map.mpr ((pairwise_sorted xs).imp fun hab => hf hab))).symm

/-- A map that turns the order of numbers round sorts them the other way round. -/
theorem sorted_map_of_antitone {f : Rat → Rat} (hf : Antitone f) (xs : List Rat) :
    sorted (xs.map f) = ((sorted xs).map f).reverse := by
  refine (eq_sorted ((List.reverse_perm _).trans ((sorted_perm xs).map f)) ?_).symm
  rw [List.pairwise_reverse, List.pairwise_map]
  exact (pairwise_sorted xs).imp fun hab => hf hab

end ExtractionBench.Scalar
