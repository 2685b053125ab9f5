import Mathlib
import ExtractionBench.Chart.Benchsets
import ExtractionBench.Proofs.Ascending
import ExtractionBench.Proofs.Exact

/-!
# The places of bars

Each suite has a unit of the horizontal axis, and the extractors share eight tenths of it in equal
slots, whether they have a ratio there or not. In exact arithmetic a slot ends where the next one
starts, so bars never overlap.
-/

namespace ExtractionBench

/-! ## Rectangles -/

/-- What a rectangle covers, its edges apart. -/
def Box.interior (box : Box Rat) : Set (Rat × Rat) :=
  Set.Ioo box.left box.right ×ˢ Set.Ioo box.bottom box.top

/-- Boxes beside each other have no points in common. -/
theorem Box.disjoint_interior {box box' : Box Rat} (h : box.right ≤ box'.left) :
    Disjoint box.interior box'.interior := by
  refine Set.disjoint_left.mpr fun place hplace hplace' => ?_
  have hlt : place.1 < box.right := hplace.1.2
  have hgt : box'.left < place.1 := hplace'.1.1
  exact absurd (hgt.trans hlt) h.not_gt

namespace Plot

open Benchset

variable {grid : Grid Rat} {baseline suite suite' extractor extractor' : String} {b b' k k' : Nat}
  {box box' : Box Rat}
  {ratio ratio' : Rat}

/-! ## The bar of a cell -/

/-- This is the bar for a suite, in the `b`-th group, and an extractor. -/
inductive BarOf (grid : Grid Rat) (suite : String) (b : Nat) (extractor : String) : Box Rat → Prop
  | mk {k : Nat} {row : List (String × Rat)} {ratio : Rat}
      (hcolumn : (columns grid)[k]? = some extractor)
      (hrow : grid[b]? = some (suite, row))
      (hratio : Ascending.find? Ascending.nameBefore extractor row = some ratio) :
      BarOf grid suite b extractor (boxAt grid b k ratio)

/-- Every extractor has one column, so the bars of its series are all its bars. -/
theorem mem_boxesOf_iff (hcolumn : (columns grid)[k]? = some extractor) :
    box ∈ boxesOf grid extractor k ↔ ∃ suite b, BarOf grid suite b extractor box := by
  unfold boxesOf
  rw [List.mem_filterMap]
  constructor
  · rintro ⟨⟨⟨suite, row⟩, b⟩, hrow, hbox⟩
    obtain ⟨ratio, hratio, rfl⟩ := Option.map_eq_some_iff.mp hbox
    exact ⟨suite, b, .mk hcolumn (List.mem_zipIdx_iff_getElem?.mp hrow) hratio⟩
  · rintro ⟨suite, b, hbar⟩
    cases hbar with
    | @mk k' row ratio hcolumn' hrow hratio =>
      obtain ⟨hk, -⟩ := List.getElem?_eq_some_iff.mp hcolumn
      obtain rfl : k = k' :=
        (List.getElem?_inj hk (Ascending.nodup_names _)).mp (hcolumn.trans hcolumn'.symm)
      refine ⟨((suite, row), b), List.mem_zipIdx_iff_getElem?.mpr hrow, ?_⟩
      exact Option.map_eq_some_iff.mpr ⟨ratio, hratio, rfl⟩

theorem mem_series_benchsets {s : Series Rat} :
    s ∈ (benchsets grid baseline).series ↔
      ∃ extractor k, (columns grid)[k]? = some extractor ∧
        s = ⟨extractor, .bars (boxesOf grid extractor k)⟩ := by
  simp [benchsets, List.mem_zipIdx_iff_getElem?, eq_comm]

/-! ## Slots -/

/-- The bars of a group share eight tenths of its width. -/
theorem barWidth_eq (grid : Grid Rat) :
    barWidth grid = 8 / 10 / (max (columns grid).length 1 : Nat) := by
  norm_num [barWidth, Scalar.quotient]

theorem slotCount_pos (grid : Grid Rat) : (0 : Rat) < (max (columns grid).length 1 : Nat) := by
  have hcolumns : 0 < max (columns grid).length 1 := by omega
  exact Nat.cast_pos.mpr hcolumns

theorem barWidth_pos (grid : Grid Rat) : 0 < barWidth grid := by
  have hcount := slotCount_pos grid
  rw [barWidth_eq]
  positivity

/-- The slots of a group end before its room does. -/
theorem slots_le (hk : k < (columns grid).length) : ((k : Rat) + 1) * barWidth grid ≤ 8 / 10 := by
  have hle : k + 1 ≤ max (columns grid).length 1 := by omega
  have hcast : (k : Rat) + 1 ≤ (max (columns grid).length 1 : Nat) := by exact_mod_cast hle
  calc ((k : Rat) + 1) * barWidth grid
      ≤ (max (columns grid).length 1 : Nat) * barWidth grid :=
        mul_le_mul_of_nonneg_right hcast (barWidth_pos grid).le
    _ = 8 / 10 := by rw [barWidth_eq, mul_div_cancel₀ _ (slotCount_pos grid).ne']

theorem left_boxAt : (boxAt grid b k ratio).left = b + 1 / 10 + k * barWidth grid := by
  norm_num [boxAt, Scalar.quotient]

theorem right_boxAt : (boxAt grid b k ratio).right = b + 1 / 10 + (k + 1) * barWidth grid := by
  have hleft : (boxAt grid b k ratio).right = (boxAt grid b k ratio).left + barWidth grid := rfl
  rw [hleft, left_boxAt]
  ring

/-- A bar stays off both sides of its group. -/
theorem boxAt_mem_group (hk : k < (columns grid).length) :
    b + 1 / 10 ≤ (boxAt grid b k ratio).left ∧
    (boxAt grid b k ratio).left < (boxAt grid b k ratio).right ∧
      (boxAt grid b k ratio).right ≤ b + 9 / 10 := by
  have hwidth := barWidth_pos grid
  have hslots := slots_le hk
  have hstart : 0 ≤ (k : Rat) * barWidth grid := mul_nonneg (Nat.cast_nonneg k) hwidth.le
  rw [left_boxAt, right_boxAt]
  refine ⟨?_, ?_, ?_⟩ <;> linarith

/-- A bar ends before the bar of the next slot starts. -/
theorem boxAt_before_slot (h : k < k') :
    (boxAt grid b k ratio).right ≤ (boxAt grid b k' ratio').left := by
  have hcast : (k : Rat) + 1 ≤ k' := by exact_mod_cast h
  have hslots := mul_le_mul_of_nonneg_right hcast (barWidth_pos grid).le
  rw [left_boxAt, right_boxAt]
  linarith

/-- Each bar is in the middle eight tenths of its group. -/
theorem BarOf.grouped (h : BarOf grid suite b extractor box) :
    b + 1 / 10 ≤ box.left ∧ box.left < box.right ∧ box.right ≤ b + 9 / 10 := by
  cases h with
  | mk hcolumn _ _ =>
    obtain ⟨hk, -⟩ := List.getElem?_eq_some_iff.mp hcolumn
    exact boxAt_mem_group hk

/-- The bars of a group are to the left of those of later groups. -/
theorem BarOf.before_group (h : BarOf grid suite b extractor box)
    (h' : BarOf grid suite' b' extractor' box') (hb : b < b') : box.right ≤ box'.left := by
  have hcast : (b : Rat) + 1 ≤ b' := by exact_mod_cast hb
  obtain ⟨-, -, hright⟩ := h.grouped
  obtain ⟨hleft, -, -⟩ := h'.grouped
  linarith

/-- Different cells are in different groups, or in different slots of a group. -/
theorem BarOf.disjoint (h : BarOf grid suite b extractor box)
    (h' : BarOf grid suite' b' extractor' box') (hne : (suite, extractor) ≠ (suite', extractor')) :
    Disjoint box.interior box'.interior := by
  rcases lt_trichotomy b b' with hb | rfl | hb
  · exact Box.disjoint_interior (h.before_group h' hb)
  · cases h with
    | @mk k _ _ hcolumn hrow _ =>
      cases h' with
      | @mk k' _ _ hcolumn' hrow' _ =>
        rcases lt_trichotomy k k' with hk | rfl | hk
        · exact Box.disjoint_interior (boxAt_before_slot hk)
        · cases hcolumn.symm.trans hcolumn'
          cases hrow.symm.trans hrow'
          exact absurd rfl hne
        · exact (Box.disjoint_interior (boxAt_before_slot hk)).symm
  · exact (Box.disjoint_interior (h'.before_group h hb)).symm

/-! ## Edges -/

/-- Every ratio is below the ceiling of the chart, and so is one. -/
theorem lt_ratioCeiling {x : Rat} (h : x = 1 ∨ ∃ row ∈ grid, ∃ cell ∈ row.2, cell.2 = x) :
    x < ratioCeiling grid := by
  obtain ⟨hone, hcells⟩ := Scalar.le_foldl_greatest 1 (grid.flatMap fun row => row.2.map (·.2))
  have hle : x ≤ (grid.flatMap fun row => row.2.map (·.2)).foldl Scalar.greatest 1 := by
    rcases h with rfl | ⟨row, hrow, cell, hcell, rfl⟩
    · exact hone
    · exact hcells _ (List.mem_flatMap.mpr ⟨row, hrow, List.mem_map_of_mem hcell⟩)
  have hceiling : ratioCeiling grid =
      (grid.flatMap fun row => row.2.map (·.2)).foldl Scalar.greatest 1 * (11 / 10) := by
    norm_num [ratioCeiling, Scalar.quotient]
  rw [hceiling]
  linarith

theorem labelHeight_neg (grid : Grid Rat) : labelHeight grid < 0 := by
  have heven : 1 < ratioCeiling grid := lt_ratioCeiling (.inl rfl)
  have hheight : labelHeight grid = -(1 / 20) * ratioCeiling grid := by
    norm_num [labelHeight, Scalar.quotient]
  rw [hheight]
  linarith

theorem one_le_groups (grid : Grid Rat) : 1 ≤ groups grid := by
  have hle : 1 ≤ max grid.length 1 := Nat.le_max_right _ _
  unfold groups
  exact_mod_cast hle

theorem le_groups (hb : b < grid.length) : (b : Rat) + 1 ≤ groups grid := by
  have hle : b + 1 ≤ max grid.length 1 := by omega
  unfold groups
  exact_mod_cast hle

/-- The edges of a bar, in a table without negative ratios. -/
structure BarInside (grid : Grid Rat) (b : Nat) (box : Box Rat) : Prop where
  left_nonneg : 0 ≤ box.left
  left_lt_right : box.left < box.right
  right_le : box.right ≤ groups grid
  bottom_nonneg : 0 ≤ box.bottom
  bottom_le_top : box.bottom ≤ box.top
  top_lt : box.top < ratioCeiling grid
  /-- A bar stays in the unit interval of its suite. -/
  group : (b : Rat) ≤ box.left ∧ box.right ≤ b + 1

/-- Bars of ratios that are not negative are inside the axes. -/
theorem BarOf.inside (h : BarOf grid suite b extractor box)
    (hnonneg : ∀ row ∈ grid, ∀ cell ∈ row.2, 0 ≤ cell.2) :
    BarInside grid b box := by
  obtain ⟨hleft, hlt, hright⟩ := h.grouped
  have hb : (0 : Rat) ≤ b := Nat.cast_nonneg b
  cases h with
  | @mk k row ratio _ hrow hratio =>
    have hmem : (suite, row) ∈ grid := List.mem_of_getElem? hrow
    obtain ⟨name, hcell, -⟩ := Ascending.exists_mem_of_find? hratio
    have hgroups := le_groups (List.getElem?_eq_some_iff.mp hrow).1
    exact
      { left_nonneg := by linarith
        left_lt_right := hlt
        right_le := by linarith
        bottom_nonneg := le_rfl
        bottom_le_top := hnonneg _ hmem _ hcell
        top_lt := lt_ratioCeiling (.inr ⟨_, hmem, _, hcell, rfl⟩)
        group := ⟨by linarith, by linarith⟩ }

end Plot

end ExtractionBench
