import Mathlib.Tactic
import ExtractionBench.Benchset.Layout
import ExtractionBench.Proofs.Ascending
import ExtractionBench.Proofs.Decimal.Fixed
import ExtractionBench.Proofs.Text.Bytes
import ExtractionBench.Proofs.Traversal

/-!
# The alignment of tables

A column is as wide as its heading has bytes, and as wide as eight characters at least. Suites and
headings have no more characters than bytes and always fit, so a line differs in length from the
heading only by what its cells stand out of their columns. The lines are of one length, and every
column ends at one place, exactly if each value fits.
-/

namespace ExtractionBench.Benchset

variable {β : Type} {value : β → String} {grid : Grid β}

/-! ## The lines of a table -/

/-- A line of a table without its end. -/
def lineText (first : Nat) (columns : List String) (start : String)
    (cell : String → String) : String :=
  padRight first start ++
    String.join (columns.map fun c => "  " ++ padLeft (columnWidth c) (cell c))

/-- What stands in the column of an extractor; nothing if the row has no value for it. -/
def cellText (value : β → String) (row : List (String × β)) (extractor : String) : String :=
  ((Ascending.find? Ascending.nameBefore extractor row).map value).getD ""

/-- The headings of the first `k` columns of values. -/
def headingUpTo (grid : Grid β) (k : Nat) : String :=
  lineText (firstWidth grid) ((columns grid).take k) heading id

/-- The line of a suite up to the end of the `k`-th column of values. -/
def rowUpTo (value : β → String) (grid : Grid β) (entry : String × List (String × β))
    (k : Nat) : String :=
  lineText (firstWidth grid) ((columns grid).take k) entry.1 (cellText value entry.2)

/-- The lines of a table without their ends: the headings, and a line for each suite. -/
def renderedRows (value : β → String) (grid : Grid β) : List String :=
  headingUpTo grid (columns grid).length :: grid.map fun entry =>
    rowUpTo value grid entry (columns grid).length

theorem layout_eq (value : β → String) (grid : Grid β) :
    layout value grid = String.join ((renderedRows value grid).map (· ++ "\n")) := by
  simp only [renderedRows, headingUpTo, rowUpTo, List.take_length, List.map_cons, List.map_map,
    String.join_cons]
  rfl

theorem length_lineText (first : Nat) (columns : List String) (start : String)
    (cell : String → String) :
    (lineText first columns start cell).length =
      max first start.length +
        (columns.map fun c => 2 + max (columnWidth c) (cell c).length).sum := by
  have hgap : ("  " : String).length = 2 := by decide
  have hcell : ∀ c, ("  " ++ padLeft (columnWidth c) (cell c)).length =
      2 + max (columnWidth c) (cell c).length := by
    intro c
    rw [String.length_append, length_padLeft, hgap]
  rw [lineText, String.length_append, length_padRight, String.length_join, List.map_map]
  simp only [Function.comp_def, hcell]

/-! ## Widths -/

/-- Every column is at least as wide as its heading. -/
theorem length_headingUpTo (grid : Grid β) (k : Nat) :
    (headingUpTo grid k).length =
      firstWidth grid + (((columns grid).take k).map fun c => 2 + columnWidth c).sum := by
  have hfirst : heading.length ≤ firstWidth grid :=
    (Text.length_le_utf8ByteSize heading).trans (le_foldl_max _ _).1
  have hcolumn : ∀ c : String, max (columnWidth c) (id c).length = columnWidth c := fun c =>
    Nat.max_eq_left ((Text.length_le_utf8ByteSize c).trans (Nat.le_max_left _ _))
  rw [headingUpTo, length_lineText, Nat.max_eq_left hfirst]
  simp only [hcolumn]

theorem length_rowUpTo {entry : String × List (String × β)} (h : entry ∈ grid) (k : Nat) :
    (rowUpTo value grid entry k).length =
      firstWidth grid +
        (((columns grid).take k).map fun c =>
          2 + max (columnWidth c) (cellText value entry.2 c).length).sum := by
  have hfirst : entry.1.length ≤ firstWidth grid :=
    (Text.length_le_utf8ByteSize entry.1).trans ((le_foldl_max _ _).2 _ (List.mem_map_of_mem h))
  rw [rowUpTo, length_lineText, Nat.max_eq_left hfirst]

theorem sum_max_eq_iff (width length : String → Nat) (cs : List String) :
    (cs.map fun c => 2 + max (width c) (length c)).sum = (cs.map fun c => 2 + width c).sum ↔
      ∀ c ∈ cs, length c ≤ width c := by
  induction cs with
  | nil => simp
  | cons c cs ih =>
    have hle :
        (cs.map fun c => 2 + width c).sum ≤ (cs.map fun c => 2 + max (width c) (length c)).sum :=
      List.sum_le_sum fun c _ => Nat.add_le_add_left (Nat.le_max_left _ _) 2
    rw [List.map_cons, List.map_cons, List.sum_cons, List.sum_cons, List.forall_mem_cons, ← ih]
    omega

/-- A line reaches as far as the heading, at every column up to some one, exactly if the cells up to
there fit. -/
theorem length_rowUpTo_eq_iff {entry : String × List (String × β)} (h : entry ∈ grid) (k : Nat) :
    (rowUpTo value grid entry k).length = (headingUpTo grid k).length ↔
      ∀ c ∈ (columns grid).take k, (cellText value entry.2 c).length ≤ columnWidth c := by
  rw [length_rowUpTo h, length_headingUpTo, Nat.add_left_cancel_iff]
  exact sum_max_eq_iff columnWidth _ _

/-! ## Alignment -/

/-- All lines of a table have one length. -/
def Aligned (value : β → String) (grid : Grid β) : Prop :=
  ∀ row ∈ renderedRows value grid, row.length = (headingUpTo grid (columns grid).length).length

/-- Each column of values ends, on every line, where its heading ends. -/
def ColumnsAligned (value : β → String) (grid : Grid β) : Prop :=
  ∀ entry ∈ grid, ∀ k, (rowUpTo value grid entry k).length = (headingUpTo grid k).length

theorem aligned_iff_cellText :
    Aligned value grid ↔
      ∀ entry ∈ grid, ∀ c ∈ columns grid, (cellText value entry.2 c).length ≤ columnWidth c := by
  rw [Aligned, renderedRows, List.forall_mem_cons, List.forall_mem_map]
  simp only [true_and]
  refine forall₂_congr fun entry hentry => ?_
  rw [length_rowUpTo_eq_iff hentry, List.take_length]

theorem columnsAligned_of_aligned (h : Aligned value grid) : ColumnsAligned value grid := by
  intro entry hentry k
  rw [length_rowUpTo_eq_iff hentry]
  exact fun c hc => aligned_iff_cellText.mp h entry hentry c (List.mem_of_mem_take hc)

/-- Every extractor with a value on some line has a column. -/
theorem mem_columns_of_find? {entry : String × List (String × β)} (h : entry ∈ grid) {c : String}
    {v : β} (hfind : Ascending.find? Ascending.nameBefore c entry.2 = some v) :
    c ∈ columns grid := by
  obtain ⟨c', hmem, htied⟩ := Ascending.exists_mem_of_find? hfind
  obtain rfl := Ascending.tied_nameBefore_iff.mp htied
  rw [columns, Ascending.mem_names_iff, List.mem_flatMap]
  exact ⟨entry, h, List.mem_map_of_mem hmem⟩

/-- Every value that stands in a table fits its column, by some measure of values and widths. -/
def AllFit (fits : Nat → β → Prop) (grid : Grid β) : Prop :=
  ∀ entry ∈ grid, ∀ c v, Ascending.find? Ascending.nameBefore c entry.2 = some v →
    fits (columnWidth c) v

/-- A table is aligned exactly if all its values fit their columns; blank cells always do. -/
theorem aligned_iff_allFit (value : β → String) (grid : Grid β) :
    Aligned value grid ↔ AllFit (fun width v => (value v).length ≤ width) grid := by
  rw [aligned_iff_cellText]
  refine forall₂_congr fun entry hentry => ?_
  constructor
  · intro h c v hfind
    have hcell := h c (mem_columns_of_find? hentry hfind)
    rwa [cellText, hfind] at hcell
  · intro h c _
    unfold cellText
    cases hfind : Ascending.find? Ascending.nameBefore c entry.2 with
    | none => exact Nat.zero_le _
    | some v => exact h c v hfind

theorem leastWidth_le_columnWidth (c : String) : leastWidth ≤ columnWidth c := Nat.le_max_right _ _

theorem allFit_congr {fits fits' : Nat → β → Prop}
    (h : ∀ width v, leastWidth ≤ width → (fits width v ↔ fits' width v)) :
    AllFit fits grid ↔ AllFit fits' grid := by
  refine forall₂_congr fun entry _ => forall₂_congr fun c v => imp_congr_right fun _ => ?_
  exact h (columnWidth c) v (leastWidth_le_columnWidth c)

/-- A table of counts and one of ratios are made of lines of which all have the length of the
heading exactly if each count, and each ratio rounded to four places, has few enough digits for its
column; and if they have, every column ends on every line where its heading ends. -/
theorem tables_aligned_iff (counts : Grid Nat) (ratios : Grid Double) :
    (layoutCounts counts = String.join ((renderedRows toString counts).map (· ++ "\n")) ∧
      (Aligned toString counts ↔ AllFit (fun width n => n < 10 ^ width) counts) ∧
      (Aligned toString counts → ColumnsAligned toString counts)) ∧
    layoutRatios ratios = String.join ((renderedRows (Decimal.fixed 4) ratios).map (· ++ "\n")) ∧
      (Aligned (Decimal.fixed 4) ratios ↔ AllFit (Decimal.FitsIn 4) ratios) ∧
      (Aligned (Decimal.fixed 4) ratios → ColumnsAligned (Decimal.fixed 4) ratios) := by
  have hcounts : Aligned toString counts ↔ AllFit (fun width n => n < 10 ^ width) counts := by
    rw [aligned_iff_allFit]
    refine allFit_congr fun width n hwidth => ?_
    rw [Nat.toString_eq_ofList_toDigits, String.length_ofList]
    exact Nat.length_toDigits_le_iff (by norm_num) (Nat.lt_of_lt_of_le (by decide) hwidth)
  have hratios : Aligned (Decimal.fixed 4) ratios ↔ AllFit (Decimal.FitsIn 4) ratios := by
    rw [aligned_iff_allFit]
    refine allFit_congr fun width x hwidth => ?_
    exact Decimal.length_fixed_le_iff (by norm_num) (Nat.le_trans (by decide) hwidth)
  exact ⟨⟨layout_eq toString counts, hcounts, columnsAligned_of_aligned⟩,
    layout_eq (Decimal.fixed 4) ratios, hratios, columnsAligned_of_aligned⟩

/-- The results of a baseline and of an extractor that failed. -/
def failedRun : List (Measurement Double) :=
  [⟨"data/egg/a.json", "ilp", .ofNat 1, .ofNat 1, .ofNat 1, ⟨"output/ilp/a.json"⟩, ⟨"output/ilp"⟩⟩,
    ⟨"data/egg/a.json", "beam-1", .ofNat 1, .ofNat 5000, .ofNat 1, ⟨"output/beam-1/a.json"⟩,
      ⟨"output/beam-1"⟩⟩]

/-- A cost at the cap is a thousand times the baseline, and its ratio stands out of its column. -/
theorem capped_ratio_stands_out :
    let grid := dagRatios (failedRun.map Measurement.clamp) "ilp" ["beam-1"]
    layoutRatios grid = "benchset    beam-1\negg       1000.0000\n" ∧
      ¬ Aligned (Decimal.fixed 4) grid := by
  have hgrid : dagRatios (failedRun.map Measurement.clamp) "ilp" ["beam-1"] =
      [("egg", [("beam-1", .ofNat 1000)])] := by
    decide +kernel
  intro grid
  have hlines :
      renderedRows (Decimal.fixed 4) grid = ["benchset    beam-1", "egg       1000.0000"] := by
    rw [show grid = _ from hgrid]
    decide +kernel
  refine ⟨?_, fun haligned => ?_⟩
  · rw [layoutRatios, layout_eq, hlines]
    rfl
  · have hheading : headingUpTo grid (columns grid).length = "benchset    beam-1" :=
      (List.cons.inj hlines).1
    have hrow := haligned "egg       1000.0000" (by simp [hlines])
    rw [hheading] at hrow
    exact absurd hrow (by decide)

end ExtractionBench.Benchset
