import Mathlib.Tactic
import ExtractionBench.Proofs.Measurement.Loading
import ExtractionBench.Proofs.Text.Columns

/-!
# The rows of a table

A line holds a result if it has five columns of which the last three are numbers in range. A table
is read if every line holds a result that is neither blank nor taken for the heading, and then these
are the results, line by line. A first line is taken for the heading by how it starts, so a row is
lost if it is the first one and its benchmark is called `file…`; no other row is.
-/

namespace ExtractionBench.Measurement

variable {path : Path} {line : List Char} {lines : List (List Char)} {m : Measurement Double}
  {ms : List (Measurement Double)}

/-! ## One line -/

/-- A line holds this result. -/
structure Holds (path : Path) (line : List Char) (m : Measurement Double) : Prop where
  /-- Without the blanks around them, the columns are the two names and three numbers. -/
  columns :
    ∃ tree dag micros, Text.columns line = [m.name.toList, m.extractor.toList, tree, dag, micros] ∧
    Decimal.read? tree = some m.tree ∧ Decimal.read? dag = some m.dag ∧
      Decimal.read? micros = some m.micros
  range : m.tree.isFinite = true ∧ m.dag.isFinite = true ∧ m.micros.isFinite = true ∧
    ((0 : Nat) : Double) ≤ m.micros
  file : m.file = path
  directory : m.directory = path.parent

theorem holds_trim_iff : Holds path (Text.trim line) m ↔ Holds path line m := by
  constructor
  · rintro ⟨hcolumns, hrange, hfile, hdirectory⟩
    exact ⟨Text.columns_trim line ▸ hcolumns, hrange, hfile, hdirectory⟩
  · rintro ⟨hcolumns, hrange, hfile, hdirectory⟩
    exact ⟨(Text.columns_trim line).symm ▸ hcolumns, hrange, hfile, hdirectory⟩

theorem readColumn_eq_ok_iff {quantity : Quantity} {column : List Char} {x : Double} :
    readColumn quantity column = .ok x ↔ Decimal.read? column = some x := by
  unfold readColumn
  cases Decimal.read? column with
  | none => simp
  | some y => simp

theorem inRange_iff :
    m.outOfRange? = none ↔
      m.tree.isFinite = true ∧ m.dag.isFinite = true ∧ m.micros.isFinite = true ∧
      ((0 : Nat) : Double) ≤ m.micros := by
  rw [outOfRange?_eq_none_iff, isRuntime, Bool.and_eq_true, decide_eq_true_iff]
  rfl

/-- A row is read exactly if it holds a result, and that is what is read. -/
theorem ofRow_eq_ok_iff {row : List Char} : ofRow path row = .ok m ↔ Holds path row m := by
  constructor
  · intro h
    obtain ⟨hrange, hfile, hdirectory⟩ := checked_of_ofRow h
    refine ⟨?_, inRange_iff.mp hrange, hfile, hdirectory⟩
    unfold ofRow at h
    split at h
    · rename_i name extractor tree dag micros hcolumns
      simp only [bind_eq_ok_iff, readColumn_eq_ok_iff] at h
      obtain ⟨x, hx, y, hy, z, hz, h⟩ := h
      split at h
      · cases h
      · cases h
        refine ⟨tree, dag, micros, ?_, hx, hy, hz⟩
        rw [hcolumns, String.toList_ofList, String.toList_ofList]
    · cases h
  · rintro ⟨⟨tree, dag, micros, hcolumns, htree, hdag, hmicros⟩, hrange, rfl, hdirectory⟩
    have hm : (⟨m.name, m.extractor, m.tree, m.dag, m.micros, m.file, m.file.parent⟩ :
        Measurement Double) = m := by
      rw [← hdirectory]
    unfold ofRow
    simp only [hcolumns, bind_eq_ok_iff, readColumn_eq_ok_iff]
    refine ⟨m.tree, htree, m.dag, hdag, m.micros, hmicros, ?_⟩
    rw [String.ofList_toList, String.ofList_toList, hm, inRange_iff.mpr hrange]

/-- Holding a result can be decided by reading the line. -/
instance decidableHolds (path : Path) (line : List Char) : Decidable (∃ m, Holds path line m) :=
  decidable_of_iff ((ofRow path line).toOption.isSome = true) <| by
    rw [← exists_eq_ok_iff]
    exact exists_congr fun _ => ofRow_eq_ok_iff

/-! ## All lines -/

/-- There is nothing but blanks on a line. -/
def isBlankLine (line : List Char) : Bool := (Text.trim line).isEmpty

/-- A first line would be taken for the heading. -/
def isHeading (line : List Char) : Bool := headingMark.isPrefixOf (Text.trim line)

/-- The lines without the first one if that is taken for the heading. -/
def withoutHeading : List (List Char) → List (List Char)
  | [] => []
  | first :: rest => if isHeading first then rest else first :: rest

/-- The lines that must hold a result. -/
def rowLines (lines : List (List Char)) : List (List Char) :=
  (withoutHeading lines).filter fun line => !isBlankLine line

theorem not_holds_of_blank (h : isBlankLine line = true) : ¬ Holds path line m := by
  intro hm
  obtain ⟨tree, dag, micros, hcolumns, -⟩ := (holds_trim_iff.mpr hm).columns
  rw [List.isEmpty_iff.mp h] at hcolumns
  simpa [Text.columns] using congrArg List.length hcolumns

theorem isNoRow_trim (first : Bool) (line : List Char) :
    isNoRow first (Text.trim line) = (isBlankLine line || (first && isHeading line)) := rfl

theorem ofLines_cons_of_noRow {number : Nat} (h : isNoRow (number == 1) (Text.trim line) = true) :
    ofLines path number (line :: lines) = ofLines path (number + 1) lines := by
  simp only [ofLines, h, if_true]

theorem ofLines_cons_of_row {number : Nat} (h : isNoRow (number == 1) (Text.trim line) = false) :
    ofLines path number (line :: lines) = .ok ms ↔
      ∃ m rest, Holds path line m ∧ ofLines path (number + 1) lines = .ok rest ∧
        ms = m :: rest := by
  simp only [ofLines, h, Bool.false_eq_true, if_false]
  cases hrow : ofRow path (Text.trim line) with
  | error defect =>
    refine iff_of_false (by simp) ?_
    rintro ⟨m, rest, hm, -⟩
    rw [ofRow_eq_ok_iff.mpr (holds_trim_iff.mpr hm)] at hrow
    cases hrow
  | ok m =>
    constructor
    · intro hms
      obtain ⟨rest, hrest, rfl⟩ := map_eq_ok_iff.mp hms
      exact ⟨m, rest, holds_trim_iff.mp (ofRow_eq_ok_iff.mp hrow), hrest, rfl⟩
    · rintro ⟨m', rest, hm', hrest, rfl⟩
      rw [ofRow_eq_ok_iff.mpr (holds_trim_iff.mpr hm')] at hrow
      cases hrow
      exact map_eq_ok_iff.mpr ⟨rest, hrest, rfl⟩

/-- Unless the first line is taken for the heading, every line that is not blank must hold a
result. -/
theorem ofLines_eq_ok_iff {number : Nat} (hpos : 0 < number)
    (hfirst : number = 1 → ∀ first ∈ lines.head?, isHeading first = false) :
    ofLines path number lines = .ok ms ↔
      List.Forall₂ (Holds path) (lines.filter fun line => !isBlankLine line) ms := by
  induction lines generalizing number ms with
  | nil => cases ms <;> simp [ofLines]
  | cons line lines ih =>
    have hnoRow : isNoRow (number == 1) (Text.trim line) = isBlankLine line := by
      rw [isNoRow_trim]
      by_cases hnumber : number = 1
      · simp [hfirst hnumber line rfl]
      · simp [hnumber]
    -- Only the first line of all has the number 1.
    have hrest : ∀ rest, ofLines path (number + 1) lines = .ok rest ↔
        List.Forall₂ (Holds path) (lines.filter fun line => !isBlankLine line) rest :=
      fun rest => ih (Nat.succ_pos number) fun h => by omega
    by_cases hblank : isBlankLine line = true
    · rw [ofLines_cons_of_noRow (hnoRow.trans hblank), hrest,
        List.filter_cons_of_neg (by simp [hblank])]
    · rw [ofLines_cons_of_row (hnoRow.trans (by simpa using hblank)),
        List.filter_cons_of_pos (by simp [hblank])]
      constructor
      · rintro ⟨m, rest, hm, h, rfl⟩
        exact .cons hm ((hrest rest).mp h)
      · intro hrows
        cases hrows with
        | cons hm h => exact ⟨_, _, hm, (hrest _).mpr h, rfl⟩

/-- A table is read exactly if all its row lines hold results, and these are what is read. -/
theorem ofTable_eq_ok_iff {contents : String} :
    ofTable contents path = .ok ms ↔
      List.Forall₂ (Holds path) (rowLines (Text.lines contents.toList)) ms := by
  unfold ofTable rowLines
  cases Text.lines contents.toList with
  | nil => cases ms <;> simp [ofLines, withoutHeading]
  | cons first rest =>
    by_cases hheading : isHeading first = true
    · rw [ofLines_cons_of_noRow (by simp [isNoRow_trim, hheading]), withoutHeading, if_pos hheading]
      exact ofLines_eq_ok_iff (Nat.succ_pos 1) fun h => by omega
    · rw [withoutHeading, if_neg hheading]
      refine ofLines_eq_ok_iff Nat.one_pos fun _ line hline => ?_
      cases hline
      simpa using hheading

theorem exists_holds_of_mem (hrows : List.Forall₂ (Holds path) lines ms) :
    ∀ line ∈ lines, ∃ m, Holds path line m :=
  ((List.forall₂_and_left _ _).mp (hrows.imp fun _ m hm => ⟨⟨m, hm⟩, hm⟩)).1

/-- Blank lines hold nothing, so the row lines of a table that is read are those that hold a
result. -/
theorem filter_withoutHeading (hrows : List.Forall₂ (Holds path) (rowLines lines) ms) :
    ((withoutHeading lines).filter fun line => ∃ m, Holds path line m) = rowLines lines := by
  refine List.filter_congr fun line hline => ?_
  rw [Bool.eq_iff_iff, decide_eq_true_iff, Bool.not_eq_true', Bool.eq_false_iff]
  constructor
  · rintro ⟨m, hm⟩ hblank
    exact not_holds_of_blank hblank hm
  · intro hblank
    exact exists_holds_of_mem hrows line (List.mem_filter.mpr ⟨hline, by simpa using hblank⟩)

/-- Of a table that is read, the results are line by line those of the lines that hold one, except
that a first line that starts as the heading does counts for none. So nothing is lost exactly if no
such first line holds a result. -/
theorem rows_kept {contents : String} (h : ofTable contents path = .ok ms) :
    let lines := Text.lines contents.toList
    List.Forall₂ (Holds path) ((withoutHeading lines).filter fun line => ∃ m, Holds path line m)
      ms ∧
      (List.Forall₂ (Holds path) (lines.filter fun line => ∃ m, Holds path line m) ms ↔
        ∀ first ∈ lines.head?, (∃ m, Holds path first m) → ¬ headingMark <+: Text.trim first) := by
  intro lines
  have hrows : List.Forall₂ (Holds path) (rowLines lines) ms := ofTable_eq_ok_iff.mp h
  rw [← filter_withoutHeading hrows] at hrows
  refine ⟨hrows, ?_⟩
  clear_value lines
  cases lines with
  | nil => exact iff_of_true hrows (by simp)
  | cons first rest =>
    simp only [List.head?_cons, Option.mem_def, Option.some.injEq, forall_eq',
      ← List.isPrefixOf_iff_prefix]
    by_cases hheading : isHeading first = true
    · rw [withoutHeading, if_pos hheading] at hrows
      by_cases hfirst : ∃ m, Holds path first m
      · -- The row that was taken for the heading is one too many.
        refine iff_of_false (fun hall => ?_) (fun hno => hno hfirst hheading)
        rw [List.filter_cons_of_pos (by simpa using hfirst)] at hall
        have hlength := hall.length_eq.trans hrows.length_eq.symm
        simp at hlength
      · rw [List.filter_cons_of_neg (by simpa using hfirst)]
        exact iff_of_true hrows fun hm => absurd hm hfirst
    · rw [withoutHeading, if_neg hheading] at hrows
      exact iff_of_true hrows fun _ => hheading

/-- A table without a heading, in which only the second row is of a file called `file…`. -/
def twoRows : String := "b, ilp, 2, 5, 7\r\n \n  file.json ,e0,1e1, 2.5,+3 \n"

theorem twoRows_kept :
    ∃ ms, ofTable twoRows ⟨"out/out.csv"⟩ = .ok ms ∧ ms.map (·.name) = ["b", "file.json"] ∧
      List.Forall₂ (Holds ⟨"out/out.csv"⟩)
        ((Text.lines twoRows.toList).filter fun line => ∃ m, Holds ⟨"out/out.csv"⟩ line m) ms := by
  let ms : List (Measurement Double) :=
    [⟨"b", "ilp", .ofNat 2, .ofNat 5, .ofNat 7, ⟨"out/out.csv"⟩, ⟨"out"⟩⟩,
      ⟨"file.json", "e0", .ofNat 10, ⟨0x4004000000000000⟩, .ofNat 3, ⟨"out/out.csv"⟩, ⟨"out"⟩⟩]
  have hread : ofTable twoRows ⟨"out/out.csv"⟩ = .ok ms :=
    toOption_eq_some_iff.mp (by decide +kernel)
  refine ⟨ms, hread, rfl, (rows_kept hread).2.mpr fun first hfirst _ => ?_⟩
  have hline : first = "b, ilp, 2, 5, 7".toList := by
    cases hfirst
    rfl
  rw [hline]
  decide

/-- The only row of a table holds a result, which is lost because its benchmark is called
`files/a.json`. -/
theorem row_taken_for_heading :
    let row := "files/a.json, e0, 1, 2, 3"
    Text.lines (row ++ "\n").toList = [row.toList] ∧
      ofTable (row ++ "\n") ⟨"out/out.csv"⟩ = .ok [] ∧
      Holds ⟨"out/out.csv"⟩ row.toList
        ⟨"files/a.json", "e0", .ofNat 1, .ofNat 2, .ofNat 3, ⟨"out/out.csv"⟩, ⟨"out"⟩⟩ := by
  refine ⟨rfl, rfl, ofRow_eq_ok_iff.mp (toOption_eq_some_iff.mp ?_)⟩
  decide +kernel

end ExtractionBench.Measurement
