import Mathlib.Data.List.GetD
import Mathlib.Topology.Instances.Rat
import Mathlib.Tactic
import ExtractionBench.Numeric.Exact
import ExtractionBench.Statistics.Quantile

/-!
# The line through data points

Data points stand at the places `1, 2, 3, …` and are joined by segments; before the first place and
behind the last one the first and the last segment go on. `IsPolyline` says this of a function,
segment by segment, and `polyline` is the one function that it holds of. Through ascending data it
never falls.
-/

namespace ExtractionBench.Statistics

variable {data : List Rat} {size k : Nat} {t : Rat}

/-- The line through the data point `k`, counted from zero, and the next one. -/
def line (data : List Rat) (k : Nat) (t : Rat) : Rat :=
  point data k + (t - (k + 1)) * (point data (k + 1) - point data k)

/-- The segment behind the data point `k` reaches `t`. The first segment reaches everything before
it, the last one everything behind. -/
structure Reaches (size k : Nat) (t : Rat) : Prop where
  lt_size : k + 1 < size
  start : k = 0 ∨ (k : Rat) + 1 ≤ t
  stop : k + 2 = size ∨ t ≤ (k : Rat) + 2

/-- A function is the line through data points, with its first and last segment going on. -/
def IsPolyline (data : List Rat) (f : Rat → Rat) : Prop :=
  ∀ k t, Reaches data.length k t → f t = line data k t

/-- Some segment between at least two data points reaches any number. -/
theorem exists_reaches (hsize : 2 ≤ size) (t : Rat) : ∃ k, Reaches size k t := by
  induction size with
  | zero => omega
  | succ size ih =>
    by_cases htwo : size + 1 = 2
    · exact ⟨0, by omega, .inl rfl, .inl (by omega)⟩
    · obtain ⟨k, hlt, hstart, hstop⟩ := ih (by omega)
      rcases hstop with hlast | hstop
      · -- The segment was the last one, and there is another behind it now.
        by_cases hle : t ≤ (k : Rat) + 2
        · exact ⟨k, by omega, hstart, .inr hle⟩
        · refine ⟨k + 1, by omega, .inr ?_, .inl (by omega)⟩
          push_cast
          linarith
      · exact ⟨k, by omega, hstart, .inr hstop⟩

/-- There is one line through given data points. -/
theorem IsPolyline.unique (hsize : 2 ≤ data.length) {f g : Rat → Rat} (hf : IsPolyline data f)
    (hg : IsPolyline data g) : f = g := by
  funext t
  obtain ⟨k, hk⟩ := exists_reaches hsize t
  rw [hf k t hk, hg k t hk]

/-- The line through data points, from the first segment on. -/
def polyline : List Rat → Rat → Rat
  | [], _ => 0
  | [x], _ => x
  | [x, y], t => x + (t - 1) * (y - x)
  | x :: y :: z :: rest, t =>
    if t ≤ 2 then x + (t - 1) * (y - x) else polyline (y :: z :: rest) (t - 1)

theorem line_zero (x y : Rat) (rest : List Rat) (t : Rat) :
    line (x :: y :: rest) 0 t = x + (t - 1) * (y - x) := by
  simp [line, point]

theorem line_succ (x : Rat) (rest : List Rat) (k : Nat) (t : Rat) :
    line (x :: rest) (k + 1) t = line rest k (t - 1) := by
  simp only [line, point, List.getD_cons_succ]
  push_cast
  ring

theorem isPolyline_polyline (data : List Rat) : IsPolyline data (polyline data) := by
  induction data with
  | nil => exact fun k t hk => absurd hk.lt_size (by simp)
  | cons x data ih =>
    rintro k t ⟨hlt, hstart, hstop⟩
    match data, ih, hlt, hstop with
    | [], _, hlt, _ => simp at hlt
    | [y], _, hlt, _ =>
      obtain rfl : k = 0 := by simpa using hlt
      rw [line_zero, polyline]
    | y :: z :: rest, ih, hlt, hstop =>
      rw [polyline]
      cases k with
      | zero =>
        have hle : t ≤ 2 := by
          rcases hstop with hlast | hstop
          · simp at hlast
          · simpa using hstop
        rw [if_pos hle, line_zero]
      | succ k =>
        have hge : (k : Rat) + 1 + 1 ≤ t := by
          rcases hstart with hfirst | hstart
          · omega
          · exact_mod_cast hstart
        rw [line_succ]
        split_ifs with hle
        · -- Both segments reach their common place.
          have hk : (k : Rat) = 0 := by
            have hnn : (0 : Rat) ≤ k := Nat.cast_nonneg k
            linarith
          obtain rfl : k = 0 := by exact_mod_cast hk
          have ht : t = 2 := by
            push_cast at hge
            linarith
          rw [line_zero, ht]
          ring
        · refine ih k (t - 1) ⟨by simpa using hlt, .inr (by linarith), ?_⟩
          rcases hstop with hlast | hstop
          · exact .inl (by simpa using hlast)
          · refine .inr ?_
            push_cast at hstop
            linarith

/-- The line goes through the data points. -/
theorem polyline_place (hsize : 2 ≤ data.length) (hk : k < data.length) :
    polyline data ((k : Rat) + 1) = point data k := by
  by_cases hlast : k + 1 = data.length
  · obtain ⟨j, rfl⟩ : ∃ j, k = j + 1 := ⟨k - 1, by omega⟩
    have hj : Reaches data.length j (((j + 1 : Nat) : Rat) + 1) := by
      refine ⟨by omega, .inr ?_, .inl (by omega)⟩
      push_cast
      linarith
    rw [isPolyline_polyline data j _ hj, line]
    push_cast
    ring
  · have hreach : Reaches data.length k ((k : Rat) + 1) :=
      ⟨by omega, .inr le_rfl, .inr (by linarith)⟩
    rw [isPolyline_polyline data k _ hreach, line]
    ring

theorem polyline_one (x : Rat) (rest : List Rat) : polyline (x :: rest) 1 = x := by
  match rest with
  | [] => rfl
  | [y] => simp [polyline]
  | y :: z :: rest => simp [polyline]

/-- The segments meet in the data points, so the line has no gap. -/
theorem continuous_polyline (data : List Rat) : Continuous (polyline data) := by
  induction data with
  | nil => exact continuous_const
  | cons x data ih =>
    match data, ih with
    | [], _ => exact continuous_const
    | [y], _ =>
      show Continuous fun t => x + (t - 1) * (y - x)
      fun_prop
    | y :: z :: rest, ih =>
      show Continuous fun t => if t ≤ 2 then x + (t - 1) * (y - x)
        else polyline (y :: z :: rest) (t - 1)
      refine Continuous.if_le (by fun_prop) (ih.comp (by fun_prop)) continuous_id continuous_const
        fun t ht => ?_
      have htwo : (2 : Rat) - 1 = 1 := by norm_num
      rw [show t = 2 from ht, htwo, polyline_one]
      ring

theorem segment_mono {x y s : Rat} (hxy : x ≤ y) (hst : s ≤ t) :
    x + (s - 1) * (y - x) ≤ x + (t - 1) * (y - x) := by
  have hslope : 0 ≤ y - x := sub_nonneg.mpr hxy
  have hprod : (s - 1) * (y - x) ≤ (t - 1) * (y - x) :=
    mul_le_mul_of_nonneg_right (by linarith) hslope
  linarith

/-- The line through ascending data never falls. -/
theorem monotone_polyline (hasc : data.Pairwise (· ≤ ·)) : Monotone (polyline data) := by
  induction data with
  | nil => exact monotone_const
  | cons x data ih =>
    obtain ⟨hhead, hrest⟩ := List.pairwise_cons.mp hasc
    match data, ih, hhead, hrest with
    | [], _, _, _ => exact monotone_const
    | [y], _, hhead, _ =>
      intro s t hst
      exact segment_mono (hhead y List.mem_cons_self) hst
    | y :: z :: rest, ih, hhead, hrest =>
      have hxy : x ≤ y := hhead y List.mem_cons_self
      have hmono : Monotone (polyline (y :: z :: rest)) := ih hrest
      intro s t hst
      simp only [polyline]
      split_ifs with hs ht ht
      · exact segment_mono hxy hst
      · calc x + (s - 1) * (y - x) ≤ x + (2 - 1) * (y - x) := segment_mono hxy hs
          _ = polyline (y :: z :: rest) 1 := by
            rw [polyline_one]
            ring
          _ ≤ polyline (y :: z :: rest) (t - 1) := hmono (by linarith)
      · exact absurd (hst.trans ht) hs
      · exact hmono (by linarith)

/-! ## Other data -/

/-- The line through scaled and shifted data points is the line scaled and shifted. -/
theorem polyline_affine (hne : data ≠ []) (a b t : Rat) :
    polyline (data.map fun x => a * x + b) t = a * polyline data t + b := by
  induction data generalizing t with
  | nil => exact absurd rfl hne
  | cons x data ih =>
    match data, ih with
    | [], _ => rfl
    | [y], _ =>
      show a * x + b + (t - 1) * (a * y + b - (a * x + b)) = a * (x + (t - 1) * (y - x)) + b
      ring
    | y :: z :: rest, ih =>
      have hrest := ih (List.cons_ne_nil y (z :: rest)) (t - 1)
      simp only [List.map_cons, polyline] at hrest ⊢
      split_ifs with hle
      · ring
      · exact hrest

/-- Seen from the other end, the segment that reaches a number is the one that reaches its
reflection. -/
theorem Reaches.reverse (h : Reaches size k t) :
    Reaches size (size - 2 - k) ((size : Rat) + 1 - t) := by
  obtain ⟨hlt, hstart, hstop⟩ := h
  have hcast : ((size - 2 - k : Nat) : Rat) = size - 2 - k := by
    rw [Nat.cast_sub (by omega), Nat.cast_sub (by omega)]
    rfl
  refine ⟨by omega, ?_, ?_⟩
  · rcases hstop with hlast | hstop
    · exact .inl (by omega)
    · refine .inr ?_
      rw [hcast]
      linarith
  · rcases hstart with hfirst | hstart
    · exact .inl (by omega)
    · refine .inr ?_
      rw [hcast]
      linarith

theorem line_reverse (hk : k + 1 < data.length) (t : Rat) :
    line data.reverse k t = line data (data.length - 2 - k) ((data.length : Rat) + 1 - t) := by
  have hnear : point data.reverse k = point data (data.length - 2 - k + 1) := by
    rw [point, List.getD_reverse k (by omega), point,
      show data.length - 2 - k + 1 = data.length - 1 - k by omega]
  have hfar : point data.reverse (k + 1) = point data (data.length - 2 - k) := by
    rw [point, List.getD_reverse (k + 1) hk, point,
      show data.length - 1 - (k + 1) = data.length - 2 - k by omega]
  have hcast : ((data.length - 2 - k : Nat) : Rat) = data.length - 2 - k := by
    rw [Nat.cast_sub (by omega), Nat.cast_sub (by omega)]
    rfl
  rw [line, line, hnear, hfar, hcast]
  ring

/-- The line through data points taken from the other end is reflected in their middle. -/
theorem polyline_reverse (data : List Rat) (t : Rat) :
    polyline data.reverse t = polyline data ((data.length : Rat) + 1 - t) := by
  match data with
  | [] => rfl
  | [x] => rfl
  | x :: y :: rest =>
    have hsize : 2 ≤ (x :: y :: rest).reverse.length := by simp
    have hreflected : IsPolyline (x :: y :: rest).reverse fun t =>
        polyline (x :: y :: rest) (((x :: y :: rest).length : Rat) + 1 - t) := by
      intro k t hk
      rw [List.length_reverse] at hk
      rw [line_reverse hk.lt_size]
      exact isPolyline_polyline _ _ _ hk.reverse
    exact congrFun ((isPolyline_polyline _).unique hsize hreflected) t

/-- Up to the second place the line is its first segment. -/
theorem polyline_first {x y : Rat} {rest : List Rat} (ht : t ≤ 2) :
    polyline (x :: y :: rest) t = x + (t - 1) * (y - x) := by
  cases rest with
  | nil => rfl
  | cons z rest => rw [polyline, if_pos ht]

/-- From the last place but one the line is its last segment. -/
theorem polyline_last {x y : Rat} {rest : List Rat} (ht : (rest.length : Rat) + 1 ≤ t) :
    polyline (rest ++ [y, x]) t = x + (t - (rest.length + 2)) * (x - y) := by
  have hreverse : rest ++ [y, x] = (x :: y :: rest.reverse).reverse := by simp
  rw [hreverse, polyline_reverse, polyline_first]
  · simp only [List.length_cons, List.length_reverse]
    push_cast
    ring
  · simp only [List.length_cons, List.length_reverse]
    push_cast
    linarith

end ExtractionBench.Statistics
