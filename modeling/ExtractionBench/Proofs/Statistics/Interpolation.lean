import Mathlib.Algebra.Order.Floor.Semifield
import Mathlib.Data.Rat.Floor
import Mathlib.Tactic
import ExtractionBench.Proofs.Exact
import ExtractionBench.Proofs.Statistics.Polyline

/-!
# Cut points by interpolation

In the exact reading a cut point is the value of the line through the sorted data at its place: a
division without remainder finds the segment, at both ends the outermost one is taken, and what is
left of the division tells how far the place is along it. So the cut points never fall, and the
order of the sample makes no difference to them.
-/

namespace ExtractionBench.Statistics

variable {method : QuantileMethod} {data xs : List Rat} {size n i : Nat} {t : Rat}

/-- The place of the `i`-th of `n` cut points among `size` data points, of which the first is at the
place one. -/
def place (method : QuantileMethod) (size n i : Nat) : Rat :=
  match method with
  | .exclusive => (i : Rat) * ((size : Rat) + 1) / n
  | .inclusive => 1 + (i : Rat) * ((size : Rat) - 1) / n

theorem place_mono {j : Nat} (hsize : 1 ≤ size) (hij : i ≤ j) :
    place method size n i ≤ place method size n j := by
  have hle : (i : Rat) ≤ j := by exact_mod_cast hij
  have hone : (1 : Rat) ≤ size := by exact_mod_cast hsize
  have hn : (0 : Rat) ≤ n := Nat.cast_nonneg n
  cases method with
  | exclusive =>
    have hprod : (i : Rat) * (size + 1) ≤ j * (size + 1) :=
      mul_le_mul_of_nonneg_right hle (by linarith)
    exact div_le_div_of_nonneg_right hprod hn
  | inclusive =>
    have hprod : (i : Rat) * (size - 1) ≤ j * (size - 1) :=
      mul_le_mul_of_nonneg_right hle (by linarith)
    have hdiv := div_le_div_of_nonneg_right hprod hn
    simp only [place]
    linarith

/-! ## Positions -/

theorem sub_mul_div (hn : n ≠ 0) (reach j : Nat) :
    ((reach : Rat) - ((j * n : Nat) : Rat)) / n = (reach : Rat) / n - j := by
  have hn' : (n : Rat) ≠ 0 := by exact_mod_cast hn
  rw [sub_div]
  push_cast
  rw [mul_div_cancel_right₀ _ hn']

theorem le_div_of_le_div {a j : Nat} (h : j ≤ a / n) : (j : Rat) ≤ (a : Rat) / n := by
  have hle : (j : Rat) ≤ ((a / n : Nat) : Rat) := by exact_mod_cast h
  exact hle.trans Nat.cast_div_le

theorem div_le_of_div_lt {a j : Nat} (h : a / n < j) : (a : Rat) / n ≤ j :=
  (Nat.lt_of_floor_lt (by rwa [Nat.floor_div_eq_div])).le

/-- The position of a cut point is on the segment that reaches its place, as many `n`-ths along it
as it has steps. -/
theorem cutPosition_place (method : QuantileMethod) (hsize : 2 ≤ size) (hi : i < n) :
    Reaches size (cutPosition method size n i : CutPosition Rat).lower (place method size n i) ∧
      place method size n i =
        ((cutPosition method size n i : CutPosition Rat).lower : Rat) + 1 +
        (cutPosition method size n i).steps / n := by
  have hn : n ≠ 0 := by omega
  have hlt : (cutPosition method size n i : CutPosition Rat).lower + 1 < size :=
    lower_lt_size method hsize hi
  cases method with
  | exclusive =>
    set floor := i * (size + 1) / n with hfloor
    set j := max 1 (min floor (size - 1)) with hj
    have hposition : cutPosition .exclusive size n i =
        (⟨j - 1, ((i * (size + 1) : Nat) : Rat) - ((j * n : Nat) : Rat)⟩ : CutPosition Rat) := rfl
    have hplace : place .exclusive size n i = ((i * (size + 1) : Nat) : Rat) / n := by
      simp only [place]
      push_cast
      rfl
    have hlower : ((j - 1 : Nat) : Rat) + 1 = j := by
      rw [Nat.cast_sub (by omega)]
      push_cast
      ring
    rw [hposition] at hlt
    rw [hposition, hplace]
    refine ⟨⟨hlt, ?_, ?_⟩, ?_⟩
    · by_cases hfirst : j = 1
      · exact .inl (by show j - 1 = 0; omega)
      · refine .inr ?_
        show ((j - 1 : Nat) : Rat) + 1 ≤ _
        rw [hlower]
        exact le_div_of_le_div (by omega)
    · by_cases hlast : j = size - 1
      · exact .inl (by show j - 1 + 2 = size; omega)
      · refine .inr ?_
        have hle : ((i * (size + 1) : Nat) : Rat) / n ≤ ((j + 1 : Nat) : Rat) :=
          div_le_of_div_lt (by omega)
        push_cast at hle ⊢
        linarith
    · rw [sub_mul_div hn]
      show _ = ((j - 1 : Nat) : Rat) + 1 + _
      rw [hlower]
      ring
  | inclusive =>
    set j := i * (size - 1) / n with hj
    have hposition : cutPosition .inclusive size n i =
        (⟨j, ((i * (size - 1) : Nat) : Rat) - ((j * n : Nat) : Rat)⟩ : CutPosition Rat) := by
      rw [← Nat.cast_sub (Nat.div_mul_le_self _ _)]
      rfl
    have hplace : place .inclusive size n i = 1 + ((i * (size - 1) : Nat) : Rat) / n := by
      simp only [place]
      rw [Nat.cast_mul, Nat.cast_sub (by omega), Nat.cast_one]
    rw [hposition] at hlt
    rw [hposition, hplace]
    refine ⟨⟨hlt, .inr ?_, .inr ?_⟩, ?_⟩
    · have hle : (j : Rat) ≤ ((i * (size - 1) : Nat) : Rat) / n := le_div_of_le_div le_rfl
      linarith
    · have hle : ((i * (size - 1) : Nat) : Rat) / n ≤ ((j + 1 : Nat) : Rat) :=
        div_le_of_div_lt (by omega)
      push_cast at hle ⊢
      linarith
    · rw [sub_mul_div hn]
      ring

/-! ## Cut points -/

/-- Weights that add up to `n` are a place on the segment. -/
theorem interpolate_eq_line (hn : n ≠ 0) {p : CutPosition Rat}
    (ht : t = (p.lower : Rat) + 1 + p.steps / n) :
    interpolate data n p = line data p.lower t := by
  have hn' : (n : Rat) ≠ 0 := by exact_mod_cast hn
  have hinterpolate : interpolate data n p =
      (point data p.lower * ((n : Rat) - p.steps) + point data (p.lower + 1) * p.steps) / n := rfl
  rw [hinterpolate, line, ht]
  field_simp
  ring

theorem cutPoint_eq_polyline (method : QuantileMethod) (hsize : 2 ≤ data.length) (hi : i < n) :
    cutPoint method data n i = polyline data (place method data.length n i) := by
  obtain ⟨hreach, hplace⟩ := cutPosition_place method hsize hi
  rw [isPolyline_polyline data _ _ hreach]
  exact interpolate_eq_line (by omega) hplace

/-- The cut points of two or more numbers are those of their sorted list. -/
theorem quantiles_eq (method : QuantileMethod) (hsize : 2 ≤ xs.length) (hn : n ≠ 0) :
    quantiles method xs n =
      .ok ((List.range (n - 1)).map fun k =>
        polyline (Scalar.sorted xs) (place method xs.length n (k + 1))) := by
  have hlen : (Scalar.sorted xs).length = xs.length := (Scalar.sorted_perm xs).length_eq
  have hcuts : quantiles method xs n =
      .ok ((List.range (n - 1)).map fun k => cutPoint method (Scalar.sorted xs) n (k + 1)) := by
    unfold quantiles
    rw [if_neg hn]
    match hsorted : Scalar.sorted xs, hlen with
    | [], hlen => simp only [List.length_nil] at hlen; omega
    | [x], hlen => simp only [List.length_singleton] at hlen; omega
    | x :: y :: rest, _ => rfl
  rw [hcuts]
  refine congrArg _ (List.map_congr_left fun k hk => ?_)
  have hlt : k < n - 1 := List.mem_range.mp hk
  rw [cutPoint_eq_polyline method (by omega) (by omega), hlen]

/-- Cut points interpolate the sorted sample. With its numbers in ascending order at the places one,
two and so on, the `i`-th of `n` cut points is the value at its place of the line through them, the
one function without a gap that is straight between neighbouring places and before the second and
behind the last but one. So the cut points never fall, and every order of the sample gives the same
ones. -/
theorem quantiles_interpolate (method : QuantileMethod) (hsize : 2 ≤ xs.length) (hn : 1 ≤ n) :
    ∃ data L qs, data.Perm xs ∧ data.Pairwise (· ≤ ·) ∧
      IsPolyline data L ∧ (∀ L', IsPolyline data L' → L' = L) ∧ Continuous L ∧
      (∀ k (hk : k < data.length), L ((k : Rat) + 1) = data[k]) ∧
      quantiles method xs n = .ok qs ∧ qs.length = n - 1 ∧
      (∀ i, 1 ≤ i → i < n → qs[i - 1]? = some (L (place method xs.length n i))) ∧
      qs.Pairwise (· ≤ ·) ∧ ∀ ys, ys.Perm xs → quantiles method ys n = .ok qs := by
  have hn' : n ≠ 0 := by omega
  have hlen : (Scalar.sorted xs).length = xs.length := (Scalar.sorted_perm xs).length_eq
  have hsize' : 2 ≤ (Scalar.sorted xs).length := by omega
  have hasc := Scalar.pairwise_sorted xs
  refine ⟨Scalar.sorted xs, polyline (Scalar.sorted xs), _, Scalar.sorted_perm xs, hasc,
    isPolyline_polyline _,
    fun L' hL' => hL'.unique hsize' (isPolyline_polyline _), continuous_polyline _, fun k hk => ?_,
    quantiles_eq method hsize hn', by simp, fun i hone hi => ?_, ?_, fun ys hys => ?_⟩
  · rw [polyline_place hsize' hk]
    simp [point, hk]
  · obtain ⟨k, rfl⟩ : ∃ k, i = k + 1 := ⟨i - 1, by omega⟩
    rw [Nat.add_sub_cancel, List.getElem?_map, List.getElem?_range (by omega), Option.map_some]
  · refine List.pairwise_map.mpr (List.pairwise_lt_range.imp fun {a b} hab => ?_)
    exact monotone_polyline hasc (place_mono (by omega) (by omega))
  · have hsorted : Scalar.sorted xs = Scalar.sorted ys :=
      Scalar.eq_sorted ((Scalar.sorted_perm xs).trans hys.symm) hasc
    rw [quantiles_eq method (by rw [hys.length_eq]; exact hsize) hn', hys.length_eq, hsorted]

/-- The quartiles of two numbers: the first and the last are beyond the two, on the line through
them. -/
theorem twoNumbers_interpolate :
    2 ≤ [(2 : Rat), 1].length ∧ 1 ≤ 4 ∧ ∃ L, IsPolyline [1, 2] L ∧
      quantiles .exclusive [(2 : Rat), 1] 4 = .ok [L (3 / 4), L (3 / 2), L (9 / 4)] := by
  obtain ⟨data, L, qs, hperm, hasc, hL, -, -, -, hqs, hlen, hcuts, -, -⟩ :=
    quantiles_interpolate .exclusive (by decide : 2 ≤ [(2 : Rat), 1].length) (by decide : 1 ≤ 4)
  have hdata : data = [1, 2] :=
    (hperm.trans (List.Perm.swap 1 2 [])).eq_of_pairwise (fun _ _ _ _ => le_antisymm) hasc (by simp)
  obtain ⟨q1, q2, q3, rfl⟩ := List.length_eq_three.mp hlen
  have h1 := Option.some.inj (hcuts 1 (by decide) (by decide))
  have h2 := Option.some.inj (hcuts 2 (by decide) (by decide))
  have h3 := Option.some.inj (hcuts 3 (by decide) (by decide))
  refine ⟨by decide, by decide, L, hdata ▸ hL, ?_⟩
  rw [hqs, h1, h2, h3]
  norm_num [place]

end ExtractionBench.Statistics
