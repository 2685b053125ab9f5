import Mathlib.Tactic
import ExtractionBench.Proofs.Statistics.Existence
import ExtractionBench.Proofs.Statistics.Interpolation

/-!
# The cut points of any sample

In the exact reading every sample that is not empty has its cut points on the line through it, a
single number included. They are symmetric in the sample, so they follow its numbers when these are
scaled and shifted, and turn round with them.
-/

namespace ExtractionBench.Statistics

variable {method : QuantileMethod} {xs : List Rat} {n i : Nat} {a b : Rat}

/-- The `i`-th of `n` cut points of a sample, by its place on the line through the sorted sample. -/
def quantile (method : QuantileMethod) (xs : List Rat) (n i : Nat) : Rat :=
  polyline (Scalar.sorted xs) (place method xs.length n i)

/-- The `n - 1` cut points of a sample. -/
def cuts (method : QuantileMethod) (xs : List Rat) (n : Nat) : List Rat :=
  (List.range (n - 1)).map fun k => quantile method xs n (k + 1)

@[simp] theorem length_cuts (method : QuantileMethod) (xs : List Rat) (n : Nat) :
    (cuts method xs n).length = n - 1 := by
  simp [cuts]

theorem getElem?_cuts (hone : 1 ≤ i) (hi : i < n) :
    (cuts method xs n)[i - 1]? = some (quantile method xs n i) := by
  rw [cuts, List.getElem?_map, List.getElem?_range (by omega), Option.map_some,
    Nat.sub_add_cancel hone]

theorem head?_cuts (hn : 2 ≤ n) : (cuts method xs n).head? = some (quantile method xs n 1) := by
  rw [List.head?_eq_getElem?]
  exact getElem?_cuts le_rfl (by omega)

theorem getLast?_cuts (hn : 2 ≤ n) :
    (cuts method xs n).getLast? = some (quantile method xs n (n - 1)) := by
  rw [List.getLast?_eq_getElem?, length_cuts]
  exact getElem?_cuts (by omega) (by omega)

theorem mem_cuts_iff {q : Rat} :
    q ∈ cuts method xs n ↔ ∃ i, (1 ≤ i ∧ i < n) ∧ quantile method xs n i = q := by
  simp only [cuts, List.mem_map, List.mem_range]
  constructor
  · rintro ⟨k, hk, rfl⟩
    exact ⟨k + 1, by omega, rfl⟩
  · rintro ⟨i, hi, rfl⟩
    exact ⟨i - 1, by omega, by rw [Nat.sub_add_cancel hi.1]⟩

/-- Every quantile of a single number is that number. -/
theorem quantile_singleton (method : QuantileMethod) (x : Rat) (n i : Nat) :
    quantile method [x] n i = x := by
  rw [quantile, sorted_singleton, polyline]

/-- Every sample has its cut points on the line through it; that through a single number is
level. -/
theorem quantiles_eq_cuts (method : QuantileMethod) (hne : xs ≠ []) (hn : n ≠ 0) :
    quantiles method xs n = .ok (cuts method xs n) := by
  -- A single number is not interpolated: it is repeated, as the level line through it would have
  -- it.
  match xs, hne with
  | [x], _ =>
    have hquantiles : quantiles method [x] n = .ok (List.replicate (n - 1) x) := by
      unfold quantiles
      rw [if_neg hn, sorted_singleton]
    rw [hquantiles]
    simp [cuts, quantile_singleton, List.map_const']
  | x :: y :: rest, _ => exact quantiles_eq method (by simp) hn

/-- Later quantiles are no smaller. -/
theorem quantile_mono {j : Nat} (hne : xs ≠ []) (hij : i ≤ j) :
    quantile method xs n i ≤ quantile method xs n j :=
  monotone_polyline (Scalar.pairwise_sorted xs) (place_mono (List.length_pos_iff.mpr hne) hij)

/-- The five numbers of a sample: its ends, and its cut points into four groups. -/
theorem fiveNumber_eq (method : QuantileMethod) (hne : xs ≠ []) :
    FiveNumber.of method xs =
      .ok ⟨Scalar.minimum xs, quantile method xs 4 1, quantile method xs 4 2,
        quantile method xs 4 3, Scalar.maximum xs⟩ := by
  unfold FiveNumber.of
  rw [quantiles_eq_cuts method hne (by decide)]
  rfl

/-! ## Samples scaled and shifted -/

/-- The places of the cut points are symmetric in the sample. -/
theorem place_reflect (method : QuantileMethod) (size : Nat) (hn : n ≠ 0) (hi : i ≤ n) :
    place method size n (n - i) = (size : Rat) + 1 - place method size n i := by
  have hn' : (n : Rat) ≠ 0 := by exact_mod_cast hn
  cases method with
  | exclusive =>
    simp only [place]
    rw [Nat.cast_sub hi]
    field_simp
  | inclusive =>
    simp only [place]
    rw [Nat.cast_sub hi]
    field_simp
    ring

/-- Scaling by what is not negative, and shifting, carry over to quantiles. -/
theorem quantile_affine_of_nonneg (hne : xs ≠ []) (ha : 0 ≤ a) :
    quantile method (xs.map fun x => a * x + b) n i = a * quantile method xs n i + b := by
  have hmono : Monotone fun x => a * x + b := fun x y hxy =>
    add_le_add_left (mul_le_mul_of_nonneg_left hxy ha) b
  rw [quantile, Scalar.sorted_map hmono, List.length_map, polyline_affine (sorted_ne_nil hne)]
  rfl

/-- A factor that is not positive exchanges the ends of the sample, and the cut points are counted
from the other one. -/
theorem quantile_affine_of_nonpos (hne : xs ≠ []) (ha : a ≤ 0) (hn : n ≠ 0) (hi : i ≤ n) :
    quantile method (xs.map fun x => a * x + b) n i = a * quantile method xs n (n - i) + b := by
  have hanti : Antitone fun x => a * x + b := fun x y hxy =>
    add_le_add_left (mul_le_mul_of_nonpos_left hxy ha) b
  have hlen : (Scalar.sorted xs).length = xs.length := (Scalar.sorted_perm xs).length_eq
  rw [quantile, Scalar.sorted_map_of_antitone hanti, polyline_reverse,
    polyline_affine (sorted_ne_nil hne), List.length_map, List.length_map, hlen,
    ← place_reflect method xs.length hn hi]
  rfl

/-- Scaling by what is not negative, and shifting, carry over to all cuts. -/
theorem cuts_affine_of_nonneg (hne : xs ≠ []) (ha : 0 ≤ a) :
    cuts method (xs.map fun x => a * x + b) n = (cuts method xs n).map fun q => a * q + b := by
  rw [cuts, cuts, List.map_map]
  exact List.map_congr_left fun k _ => quantile_affine_of_nonneg hne ha

/-- Scaling by what is not positive turns the cuts round. -/
theorem cuts_affine_of_nonpos (hne : xs ≠ []) (ha : a ≤ 0) :
    cuts method (xs.map fun x => a * x + b) n =
      ((cuts method xs n).map fun q => a * q + b).reverse := by
  -- The `k`-th element of the list turned round is the cut point as far from the other end.
  refine List.ext_getElem (by simp) fun k hk _ => ?_
  have hlt : k < n - 1 := by simpa using hk
  simp only [cuts, List.getElem_map, List.getElem_range, List.getElem_reverse, List.length_map,
    List.length_range]
  rw [quantile_affine_of_nonpos hne ha (by omega) (by omega),
    show n - (k + 1) = n - 1 - 1 - k + 1 by omega]

/-- Scaling and shifting a sample scales and shifts its cut points, and a factor below zero turns
their order round: both tails of a sample are treated alike. -/
theorem quantiles_affine (method : QuantileMethod) (hne : xs ≠ []) (hn : 1 ≤ n) (a b : Rat) :
    ∃ qs, quantiles method xs n = .ok qs ∧
      (0 ≤ a → quantiles method (xs.map fun x => a * x + b) n = .ok (qs.map fun q => a * q + b)) ∧
      (a < 0 → quantiles method (xs.map fun x => a * x + b) n =
        .ok (qs.map fun q => a * q + b).reverse) := by
  have hn' : n ≠ 0 := by omega
  have hne' : (xs.map fun x => a * x + b) ≠ [] := by simpa using hne
  refine ⟨_, quantiles_eq_cuts method hne hn', fun ha => ?_, fun ha => ?_⟩
  · rw [quantiles_eq_cuts method hne' hn', cuts_affine_of_nonneg hne ha]
  · rw [quantiles_eq_cuts method hne' hn', cuts_affine_of_nonpos hne ha.le]

/-- A sample turned round and stretched: its cut points are stretched, and the last one comes
first. -/
theorem threeNumbers_turned :
    [(5 : Rat), 1, 2] ≠ [] ∧ 1 ≤ 4 ∧ quantiles .exclusive [(5 : Rat), 1, 2] 4 = .ok [1, 2, 5] ∧
      quantiles .exclusive [(-7 : Rat), 1, -1] 4 = .ok [-7, -1, 1] := by
  obtain ⟨qs, hqs, -, hturned⟩ :=
    quantiles_affine .exclusive (by decide : [(5 : Rat), 1, 2] ≠ []) (by decide : 1 ≤ 4) (-2) 3
  have hcuts : quantiles .exclusive [(5 : Rat), 1, 2] 4 = .ok [1, 2, 5] := by cbv
  rw [hcuts] at hqs
  cases hqs
  have h := hturned (by norm_num)
  norm_num at h
  exact ⟨by decide, by decide, hcuts, h⟩

end ExtractionBench.Statistics
