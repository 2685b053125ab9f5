import Mathlib.Tactic
import ExtractionBench.Proofs.Statistics.Cuts

/-!
# Cut points of several numbers of groups, and by both methods

A cut point has one place in the sample, whatever the number of groups that it is asked for with.
The places of the two methods meet in the middle, where the median is, and the exclusive ones are
farther apart.
-/

namespace ExtractionBench.Statistics

variable {method : QuantileMethod} {xs : List Rat} {n i : Nat}

/-! ## Two numbers of groups -/

/-- The place of a quantile depends only on the fraction that it is of. -/
theorem place_mul (method : QuantileMethod) (size : Nat) {k : Nat} (hk : k ≠ 0) :
    place method size (k * n) (k * i) = place method size n i := by
  have hk' : (k : Rat) ≠ 0 := by exact_mod_cast hk
  cases method with
  | exclusive =>
    simp only [place]
    push_cast
    rw [mul_assoc, mul_div_mul_left _ _ hk']
  | inclusive =>
    simp only [place]
    push_cast
    rw [mul_assoc, mul_div_mul_left _ _ hk']

/-- So does the quantile. -/
theorem quantile_mul {k : Nat} (hk : k ≠ 0) :
    quantile method xs (k * n) (k * i) = quantile method xs n i := by
  rw [quantile, place_mul method xs.length hk, quantile]

/-! ## Two methods -/

/-- The places of both methods are as far apart as the cut point is from the middle one. -/
theorem place_inclusive_sub_exclusive (size : Nat) (hn : n ≠ 0) :
    place .inclusive size n i - place .exclusive size n i = ((n : Rat) - 2 * i) / n := by
  have hn' : (n : Rat) ≠ 0 := by exact_mod_cast hn
  simp only [place]
  field_simp
  ring

/-- In the lower half the exclusive place is before the inclusive one. -/
theorem place_exclusive_le_inclusive (size : Nat) (hn : n ≠ 0) (h : 2 * i ≤ n) :
    place .exclusive size n i ≤ place .inclusive size n i := by
  have hle : 2 * (i : Rat) ≤ n := by exact_mod_cast h
  have hdiff : (0 : Rat) ≤ ((n : Rat) - 2 * i) / n := div_nonneg (by linarith) (Nat.cast_nonneg n)
  rw [← place_inclusive_sub_exclusive size hn] at hdiff
  linarith

/-- In the upper half it is behind the inclusive one. -/
theorem place_inclusive_le_exclusive (size : Nat) (hn : n ≠ 0) (h : n ≤ 2 * i) :
    place .inclusive size n i ≤ place .exclusive size n i := by
  have hle : (n : Rat) ≤ 2 * i := by exact_mod_cast h
  have hdiff : ((n : Rat) - 2 * i) / n ≤ 0 :=
    div_nonpos_of_nonpos_of_nonneg (by linarith) (Nat.cast_nonneg n)
  rw [← place_inclusive_sub_exclusive size hn] at hdiff
  linarith

theorem quantile_exclusive_le_inclusive (xs : List Rat) (hn : n ≠ 0) (h : 2 * i ≤ n) :
    quantile .exclusive xs n i ≤ quantile .inclusive xs n i :=
  monotone_polyline (Scalar.pairwise_sorted xs) (place_exclusive_le_inclusive xs.length hn h)

theorem quantile_inclusive_le_exclusive (xs : List Rat) (hn : n ≠ 0) (h : n ≤ 2 * i) :
    quantile .inclusive xs n i ≤ quantile .exclusive xs n i :=
  monotone_polyline (Scalar.pairwise_sorted xs) (place_inclusive_le_exclusive xs.length hn h)

/-! ## The median -/

/-- A number is the median of a sample: of its numbers in ascending order the one in the middle, or
the mean of the two there. -/
inductive IsMedian (xs : List Rat) : Rat → Prop where
  | odd {below above : List Rat} {x : Rat} (hperm : (below ++ x :: above).Perm xs)
      (hasc : (below ++ x :: above).Pairwise (· ≤ ·)) (hmiddle : below.length = above.length) :
        IsMedian xs x
  | even {below above : List Rat} {x y : Rat} (hperm : (below ++ x :: y :: above).Perm xs)
      (hasc : (below ++ x :: y :: above).Pairwise (· ≤ ·)) (hmiddle : below.length = above.length) :
      IsMedian xs ((x + y) / 2)

/-- A list has one element or two in the middle. -/
theorem exists_middle {data : List Rat} (hne : data ≠ []) :
    ∃ below above : List Rat, below.length = above.length ∧
      ((∃ x, data = below ++ x :: above) ∨ ∃ x y, data = below ++ x :: y :: above) := by
  obtain ⟨half, hhalf⟩ : ∃ half, data.length = 2 * half + 1 ∨ data.length = 2 * half + 2 := by
    have hpos := List.length_pos_iff.mpr hne
    exact ⟨(data.length - 1) / 2, by omega⟩
  refine ⟨data.take half, data.drop (data.length - half), by simp; omega, ?_⟩
  rcases hhalf with hodd | heven
  · refine .inl ⟨data[half], ?_⟩
    rw [show data.length - half = half + 1 by omega, ← List.drop_eq_getElem_cons,
      List.take_append_drop]
  · refine .inr ⟨data[half], data[half + 1], ?_⟩
    rw [show data.length - half = half + 1 + 1 by omega, ← List.drop_eq_getElem_cons,
      ← List.drop_eq_getElem_cons, List.take_append_drop]

/-- In the middle of an odd number of data points there is one of them. -/
theorem polyline_middle_of_odd {below above : List Rat} (x : Rat)
    (h : below.length = above.length) :
    polyline (below ++ x :: above) ((((below ++ x :: above).length : Rat) + 1) / 2) = x := by
  have hplace : ((((below ++ x :: above).length : Rat) + 1) / 2) = (below.length : Rat) + 1 := by
    rw [List.length_append, List.length_cons, ← h]
    push_cast
    ring
  rw [hplace]
  -- A single number has no segment of which it is the end, so that the line is taken from its
  -- definition there.
  cases below with
  | nil =>
    obtain rfl : above = [] := List.length_eq_zero_iff.mp h.symm
    rfl
  | cons y below =>
    rw [polyline_place (by simp; omega) (by simp)]
    simp [point]

/-- In the middle of an even number of data points is the mean of two of them. -/
theorem polyline_middle_of_even {below above : List Rat} (x y : Rat)
    (h : below.length = above.length) :
    polyline (below ++ x :: y :: above) ((((below ++ x :: y :: above).length : Rat) + 1) / 2) =
      (x + y) / 2 := by
  have hplace :
      ((((below ++ x :: y :: above).length : Rat) + 1) / 2) = (below.length : Rat) + 3 / 2 := by
    rw [List.length_append, List.length_cons, List.length_cons, ← h]
    push_cast
    ring
  have hreach :
      Reaches (below ++ x :: y :: above).length below.length ((below.length : Rat) + 3 / 2) :=
    ⟨by simp, .inr (by linarith), .inr (by linarith)⟩
  have hx : point (below ++ x :: y :: above) below.length = x := by simp [point]
  have hy : point (below ++ x :: y :: above) (below.length + 1) = y := by simp [point]
  rw [hplace, isPolyline_polyline _ _ _ hreach, line, hx, hy]
  ring

/-- The place in the middle is its own reflection. -/
theorem place_middle (method : QuantileMethod) (size : Nat) (hn : n ≠ 0) (h : 2 * i = n) :
    place method size n i = ((size : Rat) + 1) / 2 := by
  have hreflect := place_reflect method size hn (by omega : i ≤ n)
  rw [show n - i = i by omega] at hreflect
  linarith

/-- The quantile at one half is the median. -/
theorem isMedian_quantile (hne : xs ≠ []) (hn : n ≠ 0) (h : 2 * i = n) :
    IsMedian xs (quantile method xs n i) := by
  have hperm := Scalar.sorted_perm xs
  have hasc := Scalar.pairwise_sorted xs
  rw [quantile, place_middle method xs.length hn h, ← hperm.length_eq]
  obtain ⟨below, above, hmiddle, ⟨x, hx⟩ | ⟨x, y, hxy⟩⟩ := exists_middle (sorted_ne_nil hne)
  · rw [hx] at hperm hasc ⊢
    rw [polyline_middle_of_odd x hmiddle]
    exact .odd hperm hasc hmiddle
  · rw [hxy] at hperm hasc ⊢
    rw [polyline_middle_of_even x y hmiddle]
    exact .even hperm hasc hmiddle

/-- A cut point does not depend on how many others are taken: the `i`-th of `n` is the `k * i`-th of
`k * n`. In the lower half the exclusive cut points are not above the inclusive ones, and in the
upper half not below them; the one in the middle is the median for both methods. -/
theorem quantiles_consistent {k : Nat} (hne : xs ≠ []) (hn : 1 ≤ n) (hk : 1 ≤ k) :
    (∀ method, ∃ qs rs, quantiles method xs n = .ok qs ∧ quantiles method xs (k * n) = .ok rs ∧
      ∀ i, 1 ≤ i → i < n → ∃ q, qs[i - 1]? = some q ∧ rs[k * i - 1]? = some q) ∧
    (∃ es cs, quantiles .exclusive xs n = .ok es ∧ quantiles .inclusive xs n = .ok cs ∧
      ∀ i, 1 ≤ i → i < n → ∃ e c, es[i - 1]? = some e ∧ cs[i - 1]? = some c ∧
        (2 * i ≤ n → e ≤ c) ∧ (n ≤ 2 * i → c ≤ e) ∧ (2 * i = n → e = c ∧ IsMedian xs e)) ∧
    ∃ s t, FiveNumber.of .exclusive xs = .ok s ∧ FiveNumber.of .inclusive xs = .ok t ∧
      s.median = t.median ∧ IsMedian xs s.median := by
  have hn' : n ≠ 0 := by omega
  have hk' : k ≠ 0 := by omega
  have hsame :
      ∀ {n i : Nat}, n ≠ 0 → 2 * i = n → quantile .exclusive xs n i = quantile .inclusive xs n i :=
    fun hn hi => le_antisymm (quantile_exclusive_le_inclusive xs hn hi.le)
      (quantile_inclusive_le_exclusive xs hn hi.ge)
  refine ⟨fun method => ?_, ?_, ?_⟩
  · refine ⟨_, _, quantiles_eq_cuts method hne hn',
      quantiles_eq_cuts method hne (Nat.mul_ne_zero hk' hn'),
      fun i hone hi => ⟨quantile method xs n i, getElem?_cuts hone hi, ?_⟩⟩
    rw [getElem?_cuts (Nat.mul_pos hk hone) (Nat.mul_lt_mul_of_pos_left hi hk), quantile_mul hk']
  · refine ⟨_, _, quantiles_eq_cuts _ hne hn', quantiles_eq_cuts _ hne hn', fun i hone hi => ?_⟩
    exact ⟨_, _, getElem?_cuts hone hi, getElem?_cuts hone hi,
      quantile_exclusive_le_inclusive xs hn', quantile_inclusive_le_exclusive xs hn',
      fun h => ⟨hsame hn' h, isMedian_quantile hne hn' h⟩⟩
  · exact ⟨_, _, fiveNumber_eq .exclusive hne, fiveNumber_eq .inclusive hne, hsame (by decide) rfl,
      isMedian_quantile hne (by decide) rfl⟩

/-- Four numbers cut into four and into eight groups: every other cut point is the same, and the one
in the middle is the mean of the two numbers there. -/
theorem fourNumbers_consistent :
    [(4 : Rat), 1, 2, 10] ≠ [] ∧ 1 ≤ 4 ∧ 1 ≤ 2 ∧
      FiveNumber.of .exclusive [(4 : Rat), 1, 2, 10] = .ok ⟨1, 5 / 4, 3, 17 / 2, 10⟩ ∧
      (∃ rs, quantiles .exclusive [(4 : Rat), 1, 2, 10] 8 = .ok rs ∧
        rs[1]? = some (5 / 4) ∧ rs[3]? = some 3 ∧ rs[5]? = some (17 / 2)) ∧
      IsMedian [4, 1, 2, 10] 3 := by
  obtain ⟨hgroups, -, s, -, hs, -, -, hmedian⟩ :=
    quantiles_consistent (by decide : [(4 : Rat), 1, 2, 10] ≠ []) (by decide : 1 ≤ 4)
      (by decide : 1 ≤ 2)
  have hfive : FiveNumber.of .exclusive [(4 : Rat), 1, 2, 10] = .ok ⟨1, 5 / 4, 3, 17 / 2, 10⟩ := by
    cbv
  have hfour : quantiles .exclusive [(4 : Rat), 1, 2, 10] 4 = .ok [5 / 4, 3, 17 / 2] := by cbv
  obtain ⟨qs, rs, hqs, hrs, hsame⟩ := hgroups .exclusive
  rw [hfive] at hs
  cases hs
  rw [hfour] at hqs
  cases hqs
  refine ⟨by decide, by decide, by decide, hfive, ⟨rs, hrs, ?_, ?_, ?_⟩, hmedian⟩
  · obtain ⟨_, hfirst, heighth⟩ := hsame 1 (by decide) (by decide)
    exact heighth.trans hfirst.symm
  · obtain ⟨_, hsecond, heighth⟩ := hsame 2 (by decide) (by decide)
    exact heighth.trans hsecond.symm
  · obtain ⟨_, hthird, heighth⟩ := hsame 3 (by decide) (by decide)
    exact heighth.trans hthird.symm

end ExtractionBench.Statistics
