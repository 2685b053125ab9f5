import Mathlib
import ExtractionBench.Chart.Improvement
import ExtractionBench.Chart.Runtimes
import ExtractionBench.Proofs.Chart.Bars
import ExtractionBench.Proofs.FairShare.Curves
import ExtractionBench.Proofs.FairShare.Saving

/-!
# Charts inside their axes

The range of an axis is gathered from all the data, and the place of each mark is computed on its
own. In exact arithmetic both agree: all that a chart shows lies inside its axes.
-/

namespace ExtractionBench

/-! ## Marks -/

/-- The places that a shape is drawn by: the points of a line, and two opposite corners of each
rectangle. -/
def Shape.marks : Shape Rat → List (Rat × Rat)
  | .line points => points
  | .bars boxes => boxes.flatMap fun box => [(box.left, box.bottom), (box.right, box.top)]

namespace Plot

/-- All places that a plot is drawn by, those of its rules and labels included. -/
def marks (p : Plot Rat) : List (Rat × Rat) :=
  p.series.flatMap (·.shape.marks) ++ p.rules.flatten ++ p.labels.map (·.2)

/-- A place is inside the axes, and below their upper end. -/
def Covers (p : Plot Rat) (mark : Rat × Rat) : Prop :=
  mark.1 ∈ Set.Icc p.x.low p.x.high ∧ mark.2 ∈ Set.Ico p.y.low p.y.high

/-! ## Improvements -/

section Improvement

open FairShare

variable {cs : List (Curve Rat)} {c : Curve Rat} {p : Point Rat}

theorem mem_marks_improvement {mark : Rat × Rat} :
    mark ∈ (improvement cs).marks ↔
      ∃ c ∈ cs, ∃ p ∈ c.points, ((p.seconds : Rat), p.saving) = mark := by
  simp [marks, improvement, Shape.marks]

theorem savingPad_pos (cs : List (Curve Rat)) : 0 < savingPad cs := by
  unfold savingPad
  rw [Scalar.greatest_rat]
  exact lt_max_of_lt_right (by norm_num [Scalar.quotient])

/-- The pad is added to savings which are themselves in range. -/
theorem saving_mem_axis (hc : c ∈ cs) (hp : p ∈ c.points) :
    p.saving ∈ Set.Ioo (leastSaving cs - savingPad cs) (greatestSaving cs + savingPad cs) := by
  have hmem : p.saving ∈ savings cs := List.mem_flatMap.mpr ⟨c, hc, List.mem_map_of_mem hp⟩
  have hleast : leastSaving cs ≤ p.saving := (Scalar.foldl_least_le _ _).2 _ hmem
  have hgreatest : p.saving ≤ greatestSaving cs := (Scalar.le_foldl_greatest _ _).2 _ hmem
  have hpad := savingPad_pos cs
  constructor
  · linarith
  · linarith

/-- The points of a curve are at the seconds from zero on. -/
theorem seconds_of_curves {ms : List (Measurement Rat)} {reference : String}
    {excluded : List String} (h : curves ms reference excluded = .ok cs) (hc : c ∈ cs) :
    c.points.map (·.seconds) = List.range c.points.length := by
  unfold curves at h
  obtain ⟨r, -, h⟩ := bind_eq_ok_iff.mp h
  split at h
  · cases h
    cases hc
  · obtain ⟨e, -, hcurve⟩ := exists_mem_of_mapM h hc
    obtain ⟨-, points, hpoints, rfl⟩ := curveOf_eq_ok_iff.mp hcurve
    obtain ⟨results, -, rfl⟩ := exists_savings_of_curvePoints hpoints
    exact seconds_pointsOf results

/-- The axis ends with the last point of some curve, and the last point of a curve is its latest. -/
theorem seconds_le_lastSecond (hseconds : c.points.map (·.seconds) = List.range c.points.length)
    (hc : c ∈ cs) (hp : p ∈ c.points) : p.seconds ≤ lastSecond cs := by
  have hmem : p.seconds ∈ List.range c.points.length := hseconds ▸ List.mem_map_of_mem hp
  have hlt := List.mem_range.mp hmem
  have hlast : c.points.getLast?.map (·.seconds) = some (c.points.length - 1) := by
    rw [← List.getLast?_map, hseconds, List.getLast?_range, if_neg (by omega)]
  have hle : c.points.length - 1 ≤ lastSecond cs :=
    (le_foldl_max 1 _).2 _ (List.mem_filterMap.mpr ⟨c, hc, hlast⟩)
  omega

/-- The points of some curves are inside the axes of their chart, and off the ends of the vertical
one. -/
structure CurvesInside (cs : List (Curve Rat)) : Prop where
  seconds : ∀ c ∈ cs, ∀ p ∈ c.points, p.seconds ≤ lastSecond cs
  savings : ∀ c ∈ cs, ∀ p ∈ c.points,
    p.saving ∈ Set.Ioo (leastSaving cs - savingPad cs) (greatestSaving cs + savingPad cs)
  covered : ∀ mark ∈ (improvement cs).marks, (improvement cs).Covers mark

theorem curvesInside_of_curves {ms : List (Measurement Rat)} {reference : String}
    {excluded : List String} (h : curves ms reference excluded = .ok cs) : CurvesInside cs where
  seconds := fun _ hc _ hp => seconds_le_lastSecond (seconds_of_curves h hc) hc hp
  savings := fun _ hc _ hp => saving_mem_axis hc hp
  covered := by
    intro mark hmark
    obtain ⟨c, hc, p, hp, rfl⟩ := mem_marks_improvement.mp hmark
    refine ⟨⟨Nat.cast_nonneg p.seconds, ?_⟩, Set.Ioo_subset_Ico_self (saving_mem_axis hc hp)⟩
    exact Nat.cast_le.mpr (seconds_le_lastSecond (seconds_of_curves h hc) hc hp)

end Improvement

/-! ## Runtimes -/

section Runtimes

variable {runs : List (String × List Rat)} {run : String × List Rat} {t : Rat} {i : Nat}

theorem mem_marks_runtimes {mark : Rat × Rat} :
    mark ∈ (runtimes runs).marks ↔
      ∃ run ∈ runs, ∃ drawn ∈ run.2.zipIdx,
        ((drawn.2 : Rat), Scalar.greatest drawn.1 (timeFloor runs)) = mark := by
  simp [marks, runtimes, Shape.marks]

/-- Only runtimes above zero bring the floor down. -/
theorem timeFloor_pos (runs : List (String × List Rat)) : 0 < timeFloor runs := by
  refine Scalar.lt_foldl_least_iff.mpr ⟨by norm_num [Scalar.quotient], fun t ht => ?_⟩
  exact of_decide_eq_true (List.mem_filter.mp ht).2

/-- The axis ends above all that is drawn, which no runtime below zero can change. -/
theorem lt_timeCeiling {x : Rat} (h : x = timeFloor runs ∨ x ∈ allTimes runs) :
    x < timeCeiling runs := by
  obtain ⟨hfloor, htimes⟩ := Scalar.le_foldl_greatest (timeFloor runs) (allTimes runs)
  have hpos := timeFloor_pos runs
  have hle : x ≤ (allTimes runs).foldl Scalar.greatest (timeFloor runs) := by
    rcases h with rfl | hx
    · exact hfloor
    · exact htimes x hx
  have hthree : (Scalar.quotient 3 2 : Rat) = 3 / 2 := by norm_num [Scalar.quotient]
  rw [timeCeiling, hthree]
  linarith

theorem drawn_mem_axis (hrun : run ∈ runs) (ht : (t, i) ∈ run.2.zipIdx) :
    i < mostRuns runs ∧
    Scalar.greatest t (timeFloor runs) ∈ Set.Ico (timeFloor runs) (timeCeiling runs) := by
  have hget := List.mem_zipIdx_iff_getElem?.mp ht
  have hi : i < run.2.length := (List.getElem?_eq_some_iff.mp hget).1
  have hmost : run.2.length ≤ mostRuns runs :=
    (le_foldl_max 1 _).2 _ (List.mem_map.mpr ⟨run, hrun, rfl⟩)
  have hmem : t ∈ allTimes runs := List.mem_flatMap.mpr ⟨run, hrun, List.mem_of_getElem? hget⟩
  rw [Scalar.greatest_rat]
  refine ⟨hi.trans_le hmost, le_max_right _ _, max_lt ?_ ?_⟩
  · exact lt_timeCeiling (.inr hmem)
  · exact lt_timeCeiling (.inl rfl)

/-- The runtimes of some extractors are drawn inside the axes of their chart, which start above
zero, as a logarithmic axis has to. -/
structure RuntimesInside (runs : List (String × List Rat)) : Prop where
  floor_pos : 0 < timeFloor runs
  floor_lt : timeFloor runs < timeCeiling runs
  drawn : ∀ run ∈ runs, ∀ t i, (t, i) ∈ run.2.zipIdx →
    i < mostRuns runs ∧
      Scalar.greatest t (timeFloor runs) ∈ Set.Ico (timeFloor runs) (timeCeiling runs)
  covered : ∀ mark ∈ (runtimes runs).marks, (runtimes runs).Covers mark

theorem runtimesInside (runs : List (String × List Rat)) : RuntimesInside runs where
  floor_pos := timeFloor_pos runs
  floor_lt := lt_timeCeiling (.inl rfl)
  drawn := fun _ hrun _ _ ht => drawn_mem_axis hrun ht
  covered := by
    intro mark hmark
    obtain ⟨run, hrun, ⟨t, i⟩, ht, rfl⟩ := mem_marks_runtimes.mp hmark
    obtain ⟨hi, haxis⟩ := drawn_mem_axis hrun ht
    exact ⟨⟨Nat.cast_nonneg i, Nat.cast_le.mpr hi.le⟩, haxis⟩

end Runtimes

/-! ## Bars -/

section Bars

open Benchset

variable {grid : Grid Rat} {baseline : String}

/-- What is drawn are the bars, the line where extractor and baseline are even, and the names of the
suites. -/
theorem cases_of_mem_marks {mark : Rat × Rat} (h : mark ∈ (benchsets grid baseline).marks) :
    (∃ suite b extractor box, BarOf grid suite b extractor box ∧
      (mark = (box.left, box.bottom) ∨ mark = (box.right, box.top))) ∨
    (mark = (0, 1) ∨ mark = (groups grid, 1)) ∨
    ∃ b < grid.length, mark = ((b : Rat) + 4 / 10, labelHeight grid) := by
  unfold marks at h
  rcases List.mem_append.mp h with h | hlabel
  · rcases List.mem_append.mp h with hseries | hrule
    · obtain ⟨s, hs, hcorners⟩ := List.mem_flatMap.mp hseries
      obtain ⟨extractor, k, hcolumn, rfl⟩ := mem_series_benchsets.mp hs
      obtain ⟨box, hbox, hcorner⟩ := List.mem_flatMap.mp hcorners
      obtain ⟨suite, b, hbar⟩ := (mem_boxesOf_iff hcolumn).mp hbox
      exact .inl ⟨suite, b, extractor, box, hbar, by simpa using hcorner⟩
    · exact .inr (.inl (by simpa [benchsets] using hrule))
  · obtain ⟨label, hmem, rfl⟩ := List.mem_map.mp hlabel
    obtain ⟨⟨⟨suite, row⟩, b⟩, hrow, rfl⟩ := List.mem_map.mp hmem
    obtain ⟨hb, -⟩ := List.getElem?_eq_some_iff.mp (List.mem_zipIdx_iff_getElem?.mp hrow)
    exact .inr (.inr ⟨b, hb, by norm_num [Scalar.quotient]⟩)

/-- The axis starts twice as far below the base line as the names stand. -/
theorem covers_benchsets {x y : Rat} (hx : x ∈ Set.Icc 0 (groups grid))
    (hlow : labelHeight grid ≤ y) (hhigh : y < ratioCeiling grid) :
    (benchsets grid baseline).Covers (x, y) := by
  have hstart := labelHeight_neg grid
  refine ⟨hx, ?_, hhigh⟩
  show 2 * labelHeight grid ≤ y
  linarith

/-- The bars of a table without negative ratios are inside the axes of their chart, each in the unit
of its suite and apart from those of all other cells. -/
structure BarsInside (grid : Grid Rat) (baseline : String) : Prop where
  series : ∀ s ∈ (benchsets grid baseline).series, ∃ boxes, s.shape = .bars boxes ∧
    ∀ box, box ∈ boxes ↔ ∃ suite b, BarOf grid suite b s.name box
  inside : ∀ suite b extractor box, BarOf grid suite b extractor box → BarInside grid b box
  apart : ∀ suite b extractor box suite' b' extractor' box', BarOf grid suite b extractor box →
    BarOf grid suite' b' extractor' box' → (suite, extractor) ≠ (suite', extractor') →
      Disjoint box.interior box'.interior
  covered : ∀ mark ∈ (benchsets grid baseline).marks, (benchsets grid baseline).Covers mark

theorem barsInside (hnonneg : ∀ row ∈ grid, ∀ cell ∈ row.2, 0 ≤ cell.2) :
    BarsInside grid baseline where
  series := by
    intro s hs
    obtain ⟨extractor, k, hcolumn, rfl⟩ := mem_series_benchsets.mp hs
    exact ⟨_, rfl, fun box => mem_boxesOf_iff hcolumn⟩
  inside := fun _ _ _ _ hbar => hbar.inside hnonneg
  apart := fun _ _ _ _ _ _ _ _ hbar hbar' hne => hbar.disjoint hbar' hne
  covered := by
    intro mark hmark
    have hbase := labelHeight_neg grid
    have heven : 1 < ratioCeiling grid := lt_ratioCeiling (.inl rfl)
    have hgroups : 1 ≤ groups grid := one_le_groups grid
    rcases cases_of_mem_marks hmark with
      ⟨suite, b, extractor, box, hbar, hcorner⟩ | hline | ⟨b, hb, rfl⟩
    · have hin := hbar.inside hnonneg
      have hbottom := hin.bottom_nonneg
      have htop := hin.bottom_le_top
      rcases hcorner with rfl | rfl
      · refine covers_benchsets ⟨hin.left_nonneg, hin.left_lt_right.le.trans hin.right_le⟩ ?_ ?_
        · linarith
        · exact htop.trans_lt hin.top_lt
      · refine covers_benchsets ⟨hin.left_nonneg.trans hin.left_lt_right.le, hin.right_le⟩ ?_
          hin.top_lt
        linarith
    · rcases hline with rfl | rfl
      · exact covers_benchsets ⟨le_rfl, by linarith⟩ (by linarith) heven
      · exact covers_benchsets ⟨by linarith, le_rfl⟩ (by linarith) heven
    · have hplace : (b : Rat) + 1 ≤ groups grid := le_groups hb
      have hb0 : (0 : Rat) ≤ b := Nat.cast_nonneg b
      exact covers_benchsets ⟨by linarith, by linarith⟩ le_rfl (by linarith)

end Bars

/-- All that a chart shows is inside its axes, in exact arithmetic: the points of the curves that a
replay comes to, which end with their latest one; the runtimes of any extractors, where those of
zero are drawn at the lower end; and the bars, lines and names of a table of ratios, in which no two
bars overlap. -/
theorem charts_inside_axes :
    (∀ (ms : List (Measurement Rat)) (reference : String) (excluded : List String)
        (cs : List (FairShare.Curve Rat)),
      FairShare.curves ms reference excluded = .ok cs → CurvesInside cs) ∧
    (∀ runs : List (String × List Rat), RuntimesInside runs) ∧
    ∀ (grid : Benchset.Grid Rat) (baseline : String), (∀ row ∈ grid, ∀ cell ∈ row.2, 0 ≤ cell.2) →
      BarsInside grid baseline := by
  refine ⟨?_, runtimesInside, ?_⟩
  · intro ms reference excluded cs h
    exact curvesInside_of_curves h
  · intro grid baseline hnonneg
    exact barsInside hnonneg

/-- A curve that falls, a run that took no time, and two suites of which one has no ratio for an
extractor. -/
theorem small_charts_inside :
    let cs : List (FairShare.Curve Rat) := [⟨"greedy", [⟨0, 0, 0⟩, ⟨1, -100, 1⟩]⟩]
    let runs : List (String × List Rat) := [("greedy", [0, 1 / 2])]
    let grid : Benchset.Grid Rat :=
      [("egg", [("beam", 1 / 2), ("greedy", 2)]), ("lp", [("greedy", 1)])]
    CurvesInside cs ∧ RuntimesInside runs ∧ BarsInside grid "ilp" := by
  intro cs runs grid
  obtain ⟨hcurves, hruns, hgrids⟩ := charts_inside_axes
  refine ⟨hcurves [FairShare.dagRun "ilp" 1, FairShare.dagRun "greedy" 2] "ilp" [] cs ?_,
    hruns runs, hgrids grid "ilp" ?_⟩
  · cbv
  · simp only [grid, List.forall_mem_cons]
    norm_num

end Plot

end ExtractionBench
