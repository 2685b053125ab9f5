import Mathlib.Tactic
import ExtractionBench.Proofs.Statistics.Cuts

/-!
# The range of cut points

Cut points with places between the first and the last number of a sample are between its least and
its greatest number. Inclusive ones always are, and exclusive ones unless there are more cut points
than numbers; then the first and the last of them are beyond the ends, on the outermost segments of
the line.
-/

namespace ExtractionBench.Statistics

variable {method : QuantileMethod} {xs : List Rat} {size n i : Nat}

/-! ## The ends of a sample -/

/-- The first number of a list in some order comes before all of them. -/
theorem head_of_pairwise {r : Rat → Rat → Prop} (hrefl : ∀ x, r x x) {x : Rat} {rest : List Rat}
    (hperm : (x :: rest).Perm xs) (hpairs : (x :: rest).Pairwise r) : x ∈ xs ∧ ∀ y ∈ xs, r x y := by
  refine ⟨hperm.subset List.mem_cons_self, ?_⟩
  intro y hy
  rcases List.mem_cons.mp (hperm.symm.subset hy) with rfl | hrest
  · exact hrefl y
  · exact (List.pairwise_cons.mp hpairs).1 y hrest

theorem polyline_sorted_one {lo : Rat} (hlo : IsLeast {x | x ∈ xs} lo) :
    polyline (Scalar.sorted xs) 1 = lo := by
  have hperm := Scalar.sorted_perm xs
  have hasc := Scalar.pairwise_sorted xs
  obtain ⟨x, rest, hsorted⟩ := List.exists_cons_of_ne_nil (sorted_ne_nil (List.ne_nil_of_mem hlo.1))
  rw [hsorted] at hperm hasc ⊢
  have hleast : IsLeast {x | x ∈ xs} x := head_of_pairwise le_refl hperm hasc
  rw [polyline_one, hleast.unique hlo]

/-- At its last place the line is where it is at the first one when seen from the other end. -/
theorem polyline_sorted_length {hi : Rat} (hhi : IsGreatest {x | x ∈ xs} hi) :
    polyline (Scalar.sorted xs) xs.length = hi := by
  have hperm := (List.reverse_perm _).trans (Scalar.sorted_perm xs)
  have hdesc := List.pairwise_reverse.mpr (Scalar.pairwise_sorted xs)
  have hlen : (Scalar.sorted xs).length = xs.length := (Scalar.sorted_perm xs).length_eq
  have hfirst : polyline (Scalar.sorted xs) xs.length = polyline (Scalar.sorted xs).reverse 1 := by
    rw [polyline_reverse, hlen, add_sub_cancel_right]
  obtain ⟨x, rest, hsorted⟩ := List.exists_cons_of_ne_nil
    (List.reverse_ne_nil_iff.mpr (sorted_ne_nil (List.ne_nil_of_mem hhi.1)))
  rw [hsorted] at hperm hdesc hfirst
  have hgreatest : IsGreatest {x | x ∈ xs} x :=
    head_of_pairwise (r := fun x y => y ≤ x) le_refl hperm hdesc
  rw [hfirst, polyline_one, hgreatest.unique hhi]

/-! ## Between the ends -/

section Between

variable (hwithin : method = .exclusive → n ≤ size + 1)

include hwithin in
/-- A quantile that is not extrapolated has its place no earlier than the first number. -/
theorem one_le_place (hsize : 1 ≤ size) (hone : 1 ≤ i) (hn : n ≠ 0) :
    1 ≤ place method size n i := by
  cases method with
  | exclusive =>
    have hpos : (0 : Rat) < n := by exact_mod_cast Nat.pos_of_ne_zero hn
    have hle : n ≤ i * (size + 1) := (hwithin rfl).trans (Nat.le_mul_of_pos_left _ hone)
    simp only [place]
    rw [one_le_div hpos]
    exact_mod_cast hle
  | inclusive =>
    have hsize' : (1 : Rat) ≤ size := by exact_mod_cast hsize
    have hnonneg : 0 ≤ (i : Rat) * (size - 1) / n :=
      div_nonneg (mul_nonneg (Nat.cast_nonneg i) (by linarith)) (Nat.cast_nonneg n)
    simp only [place]
    linarith

include hwithin in
/-- Nor has it its place behind the last number. -/
theorem place_le_size (hsize : 1 ≤ size) (hi : i < n) : place method size n i ≤ size := by
  have hplace := one_le_place hwithin hsize (i := n - i) (by omega) (by omega)
  rw [place_reflect method size (by omega) hi.le] at hplace
  linarith

end Between

section Sample

variable {lo hi : Rat} (hlo : IsLeast {x | x ∈ xs} lo) (hhi : IsGreatest {x | x ∈ xs} hi)
  (hwithin : method = .exclusive → n ≤ xs.length + 1)

include hlo hhi hwithin

/-- So it is between the least and the greatest number. -/
theorem quantile_mem_ends (hone : 1 ≤ i) (hlt : i < n) :
    lo ≤ quantile method xs n i ∧ quantile method xs n i ≤ hi := by
  have hmono := monotone_polyline (Scalar.pairwise_sorted xs)
  have hsize : 1 ≤ xs.length := List.length_pos_of_mem hlo.1
  rw [← polyline_sorted_one hlo, ← polyline_sorted_length hhi]
  exact ⟨hmono (one_le_place hwithin hsize hone (by omega)),
    hmono (place_le_size hwithin hsize hlt)⟩

theorem cuts_mem_ends : ∀ q ∈ cuts method xs n, lo ≤ q ∧ q ≤ hi := by
  intro q hq
  obtain ⟨i, ⟨hone, hlt⟩, rfl⟩ := mem_cuts_iff.mp hq
  exact quantile_mem_ends hlo hhi hwithin hone hlt

end Sample

/-! ## Beyond the ends -/

/-- The two least numbers of a sample differ. -/
def LeastDiffer (xs : List Rat) : Prop :=
  ∃ x y rest, (x :: y :: rest).Perm xs ∧ (x :: y :: rest).Pairwise (· ≤ ·) ∧ x ≠ y

/-- The two greatest numbers of a sample differ. -/
def GreatestDiffer (xs : List Rat) : Prop :=
  ∃ x y rest, (rest ++ [y, x]).Perm xs ∧ (rest ++ [y, x]).Pairwise (· ≤ ·) ∧ y ≠ x

theorem exists_cons_cons {data : List Rat} (hsize : 2 ≤ data.length) :
    ∃ x y rest, data = x :: y :: rest := by
  match data, hsize with
  | x :: y :: rest, _ => exact ⟨x, y, rest, rfl⟩

theorem exists_sorted_cons (hsize : 2 ≤ xs.length) :
    ∃ x y rest, Scalar.sorted xs = x :: y :: rest :=
  exists_cons_cons ((Scalar.sorted_perm xs).length_eq.symm ▸ hsize)

theorem exists_sorted_append (hsize : 2 ≤ xs.length) :
    ∃ x y rest, Scalar.sorted xs = rest ++ [y, x] := by
  have hsize' : 2 ≤ (Scalar.sorted xs).reverse.length := by
    rwa [List.length_reverse, (Scalar.sorted_perm xs).length_eq]
  obtain ⟨x, y, rest, hsorted⟩ := exists_cons_cons hsize'
  refine ⟨x, y, rest.reverse, ?_⟩
  rw [← List.reverse_reverse (Scalar.sorted xs), hsorted]
  simp

section Sorted

variable {x y : Rat} {rest : List Rat}

theorem leastDiffer_iff (h : Scalar.sorted xs = x :: y :: rest) : LeastDiffer xs ↔ x < y := by
  have hperm : (x :: y :: rest).Perm xs := h ▸ Scalar.sorted_perm xs
  have hasc : (x :: y :: rest).Pairwise (· ≤ ·) := h ▸ Scalar.pairwise_sorted xs
  have hxy : x ≤ y := (List.pairwise_cons.mp hasc).1 y List.mem_cons_self
  rw [lt_iff_le_and_ne, and_iff_right hxy]
  constructor
  · rintro ⟨x', y', rest', hperm', hasc', hne⟩
    cases (Scalar.eq_sorted hperm' hasc').trans h
    exact hne
  · exact fun hne => ⟨x, y, rest, hperm, hasc, hne⟩

theorem greatestDiffer_iff (h : Scalar.sorted xs = rest ++ [y, x]) : GreatestDiffer xs ↔ y < x := by
  have hperm : (rest ++ [y, x]).Perm xs := h ▸ Scalar.sorted_perm xs
  have hasc : (rest ++ [y, x]).Pairwise (· ≤ ·) := h ▸ Scalar.pairwise_sorted xs
  have hyx : y ≤ x := by simpa using (List.pairwise_append.mp hasc).2.1
  rw [lt_iff_le_and_ne, and_iff_right hyx]
  constructor
  · rintro ⟨x', y', rest', hperm', hasc', hne⟩
    obtain ⟨-, hlast⟩ := List.append_inj' ((Scalar.eq_sorted hperm' hasc').trans h) rfl
    cases hlast
    exact hne
  · exact fun hne => ⟨x, y, rest, hperm, hasc, hne⟩

end Sorted

/-- With too many groups the first exclusive cut point is before the first number. -/
theorem place_exclusive_one_lt (hn : size + 1 < n) : place .exclusive size n 1 < 1 := by
  have hlt : (size : Rat) + 1 < n := by exact_mod_cast hn
  have hnonneg : (0 : Rat) ≤ size := Nat.cast_nonneg size
  simp only [place]
  rw [Nat.cast_one, one_mul, div_lt_one (by linarith)]
  exact hlt

/-- With more groups than numbers the first exclusive quantile is below all of them, unless the two
least are equal. -/
theorem first_cut_lt_iff {lo : Rat} (hlo : IsLeast {x | x ∈ xs} lo) (hsize : 2 ≤ xs.length)
    (hn : xs.length + 1 < n) :
    quantile .exclusive xs n 1 < lo ↔ LeastDiffer xs := by
  obtain ⟨x, y, rest, hsorted⟩ := exists_sorted_cons hsize
  have hbefore := place_exclusive_one_lt hn
  -- The cut point lies on the first segment continued, below its end by a positive part of its
  -- height.
  have hvalue :
      quantile .exclusive xs n 1 = x - (1 - place .exclusive xs.length n 1) * (y - x) := by
    rw [quantile, hsorted, polyline_first (by linarith)]
    ring
  rw [leastDiffer_iff hsorted, hvalue, ← polyline_sorted_one hlo, hsorted, polyline_one,
    sub_lt_self_iff, mul_pos_iff_of_pos_left (by linarith), sub_pos]

/-- With more groups than numbers the last exclusive quantile is above all of them, unless the two
greatest are equal. -/
theorem lt_last_cut_iff {hi : Rat} (hhi : IsGreatest {x | x ∈ xs} hi) (hsize : 2 ≤ xs.length)
    (hn : xs.length + 1 < n) :
    hi < quantile .exclusive xs n (n - 1) ↔ GreatestDiffer xs := by
  obtain ⟨x, y, rest, hsorted⟩ := exists_sorted_append hsize
  have hbefore := place_exclusive_one_lt hn
  have hlen : (xs.length : Rat) = rest.length + 2 := by
    rw [← (Scalar.sorted_perm xs).length_eq, hsorted]
    simp
  have hlast : polyline (rest ++ [y, x]) xs.length = x := by
    rw [polyline_last (by linarith), hlen]
    ring
  have hvalue :
      quantile .exclusive xs n (n - 1) = x + (1 - place .exclusive xs.length n 1) * (x - y) := by
    rw [quantile, hsorted, place_reflect .exclusive xs.length (by omega) (by omega),
      polyline_last (by linarith), hlen]
    ring
  rw [greatestDiffer_iff hsorted, hvalue, ← polyline_sorted_length hhi, hsorted, hlast,
    lt_add_iff_pos_right, mul_pos_iff_of_pos_left (by linarith), sub_pos]

/-! ## Five numbers -/

/-- The five numbers of a summary are in ascending order. -/
structure FiveNumber.InOrder (s : FiveNumber Rat) : Prop where
  min_le : s.min ≤ s.q1
  q1_le : s.q1 ≤ s.median
  median_le : s.median ≤ s.q3
  q3_le : s.q3 ≤ s.max

section FiveNumbers

variable {lo hi : Rat} (hlo : IsLeast {x | x ∈ xs} lo) (hhi : IsGreatest {x | x ∈ xs} hi)

include hlo hhi

/-- The ends of a summary are those of its sample, and it is in order if the outer quartiles are
between them. -/
theorem exists_inOrder_iff (method : QuantileMethod) :
    ∃ s, FiveNumber.of method xs = .ok s ∧ s.min = lo ∧ s.max = hi ∧
      (s.InOrder ↔ lo ≤ quantile method xs 4 1 ∧ quantile method xs 4 3 ≤ hi) := by
  have hne : xs ≠ [] := List.ne_nil_of_mem hlo.1
  have hmin : Scalar.minimum xs = lo := (Scalar.isLeast_minimum hne).unique hlo
  have hmax : Scalar.maximum xs = hi := (Scalar.isGreatest_maximum hne).unique hhi
  refine ⟨_, fiveNumber_eq method hne, hmin, hmax, ?_⟩
  constructor
  · intro h
    exact ⟨hmin ▸ h.min_le, hmax ▸ h.q3_le⟩
  · rintro ⟨hq1, hq3⟩
    exact ⟨hmin.trans_le hq1, quantile_mono hne (by decide), quantile_mono hne (by decide),
      hq3.trans_eq hmax.symm⟩

/-- The exclusive quartiles of two numbers are between them only if these are equal. -/
theorem quartiles_of_two (htwo : xs.length = 2) :
    lo ≤ quantile .exclusive xs 4 1 ∧ quantile .exclusive xs 4 3 ≤ hi ↔ lo = hi := by
  have hlen : (Scalar.sorted xs).length = 2 := (Scalar.sorted_perm xs).length_eq.trans htwo
  obtain ⟨x, y, hsorted⟩ := List.length_eq_two.mp hlen
  have hsorted' : Scalar.sorted xs = [] ++ [x, y] := hsorted
  have hxlo : x = lo := by rw [← polyline_sorted_one hlo, hsorted, polyline_one]
  have hyhi : y = hi := by
    rw [← polyline_sorted_length hhi, hsorted, htwo, polyline]
    push_cast
    ring
  have hle : lo ≤ hi := hlo.2 hhi.1
  rw [← not_lt, ← not_lt, first_cut_lt_iff hlo htwo.ge (by omega),
    lt_last_cut_iff hhi htwo.ge (by omega),
    leastDiffer_iff hsorted, greatestDiffer_iff hsorted', hxlo, hyhi, and_self, not_lt]
  exact ⟨hle.antisymm, fun h => h.ge⟩

/-- Only of two numbers that differ are the outer exclusive quartiles outside the sample. -/
theorem quartiles_exclusive_iff :
    lo ≤ quantile .exclusive xs 4 1 ∧ quantile .exclusive xs 4 3 ≤ hi ↔
      (xs.length = 2 → lo = hi) := by
  have hsize : 1 ≤ xs.length := List.length_pos_of_mem hlo.1
  -- Of four groups only two numbers are too few, and one number is all of its cut points.
  rcases (by omega : xs.length = 1 ∨ xs.length = 2 ∨ 3 ≤ xs.length) with hone | htwo | hmore
  · obtain ⟨x, rfl⟩ := List.length_eq_one_iff.mp hone
    rw [quantile_singleton, quantile_singleton]
    exact iff_of_true ⟨hlo.2 List.mem_cons_self, hhi.2 List.mem_cons_self⟩ fun h => by cases h
  · rw [quartiles_of_two hlo hhi htwo]
    exact ⟨fun h _ => h, fun h => h htwo⟩
  · have hwithin : QuantileMethod.exclusive = .exclusive → 4 ≤ xs.length + 1 := fun _ => by omega
    refine iff_of_true ⟨?_, ?_⟩ fun h => by omega
    · exact (quantile_mem_ends hlo hhi hwithin (by decide) (by decide)).1
    · exact (quantile_mem_ends hlo hhi hwithin (by decide) (by decide)).2

end FiveNumbers

/-! ## The range of the cut points -/

/-- Inclusive cut points are never outside the sample, and exclusive ones are not unless there are
more cut points than numbers. Then the first is below the least number if that differs from the next
one, and the last is above the greatest number likewise. So the five numbers of a summary are in
order, exclusive ones of two numbers that differ apart. -/
theorem quantiles_range {lo hi : Rat} (hlo : IsLeast {x | x ∈ xs} lo)
    (hhi : IsGreatest {x | x ∈ xs} hi) :
    (∀ n, 2 ≤ xs.length → 2 ≤ n →
      (∃ qs, quantiles .inclusive xs n = .ok qs ∧ ∀ q ∈ qs, lo ≤ q ∧ q ≤ hi) ∧
      ∃ qs, quantiles .exclusive xs n = .ok qs ∧
        (n ≤ xs.length + 1 → ∀ q ∈ qs, lo ≤ q ∧ q ≤ hi) ∧
        (xs.length + 1 < n → ∃ first last, qs.head? = some first ∧ qs.getLast? = some last ∧
          (first < lo ↔ LeastDiffer xs) ∧ (hi < last ↔ GreatestDiffer xs))) ∧
    (∃ s, FiveNumber.of .inclusive xs = .ok s ∧ s.min = lo ∧ s.max = hi ∧ s.InOrder) ∧
    ∃ s, FiveNumber.of .exclusive xs = .ok s ∧ s.min = lo ∧ s.max = hi ∧
      (s.InOrder ↔ (xs.length = 2 → lo = hi)) := by
  have hne : xs ≠ [] := List.ne_nil_of_mem hlo.1
  refine ⟨?_, ?_, ?_⟩
  · intro n hsize hn
    refine ⟨⟨_, quantiles_eq_cuts _ hne (by omega), cuts_mem_ends hlo hhi fun h => by cases h⟩, ?_⟩
    refine ⟨_, quantiles_eq_cuts _ hne (by omega), fun hle => cuts_mem_ends hlo hhi fun _ => hle,
      fun hlt => ?_⟩
    exact ⟨_, _, head?_cuts hn, getLast?_cuts hn, first_cut_lt_iff hlo hsize hlt,
      lt_last_cut_iff hhi hsize hlt⟩
  · obtain ⟨s, hs, hmin, hmax, hordered⟩ := exists_inOrder_iff hlo hhi .inclusive
    refine ⟨s, hs, hmin, hmax, hordered.mpr ⟨?_, ?_⟩⟩
    · exact (quantile_mem_ends hlo hhi (fun h => by cases h) (by decide) (by decide)).1
    · exact (quantile_mem_ends hlo hhi (fun h => by cases h) (by decide) (by decide)).2
  · obtain ⟨s, hs, hmin, hmax, hordered⟩ := exists_inOrder_iff hlo hhi .exclusive
    exact ⟨s, hs, hmin, hmax, hordered.trans (quartiles_exclusive_iff hlo hhi)⟩

/-- Three numbers, the least of them twice, cut into eight groups: the last cut point is above all
of them, the first one is not below. Into four groups they are cut in order. -/
theorem threeNumbers_range :
    IsLeast {x | x ∈ [(5 : Rat), 1, 1]} 1 ∧ IsGreatest {x | x ∈ [(5 : Rat), 1, 1]} 5 ∧
      quantiles .exclusive [(5 : Rat), 1, 1] 8 = .ok [1, 1, 1, 1, 3, 5, 7] ∧
      ¬ LeastDiffer [5, 1, 1] ∧ GreatestDiffer [5, 1, 1] ∧
      ∃ s, FiveNumber.of .exclusive [(5 : Rat), 1, 1] = .ok s ∧ s.InOrder := by
  have hlo : IsLeast {x | x ∈ [(5 : Rat), 1, 1]} 1 := by norm_num [IsLeast, lowerBounds]
  have hhi : IsGreatest {x | x ∈ [(5 : Rat), 1, 1]} 5 := by norm_num [IsGreatest, upperBounds]
  have hcuts : quantiles .exclusive [(5 : Rat), 1, 1] 8 = .ok [1, 1, 1, 1, 3, 5, 7] := by cbv
  obtain ⟨hgroups, -, s, hs, -, -, hordered⟩ := quantiles_range hlo hhi
  obtain ⟨-, qs, hqs, -, hbeyond⟩ := hgroups 8 (by decide) (by decide)
  rw [hcuts] at hqs
  cases hqs
  obtain ⟨_, _, hfirst, hlast, hleast, hgreatest⟩ := hbeyond (by decide)
  cases hfirst
  cases hlast
  refine ⟨hlo, hhi, hcuts, hleast.not.mp (by norm_num), hgreatest.mp (by norm_num), s, hs,
    hordered.mpr ?_⟩
  intro htwo
  cases htwo

end ExtractionBench.Statistics
