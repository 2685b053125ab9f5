import Mathlib.Tactic
import ExtractionBench.Proofs.Measurement.Table

/-!
# Malformed tables

A row is checked for the number of its columns, for numbers in those of the quantities, and for the
range of these numbers, in this order, and it is refused for the first check that it fails. A table
is read exactly if every line is skipped or holds a result; otherwise it is refused for the first
line that is neither and does not.
-/

namespace ExtractionBench.Measurement

variable {path : Path} {line : List Char} {lines : List (List Char)} {m : Measurement Double}

/-! ## The checks of a row -/

/-- What is asked of a row. -/
inductive RowCheck where
  /-- It has five columns. -/
  | columnCount
  /-- There is a number in the column of a quantity. -/
  | number (quantity : Quantity)
  /-- The number of a quantity can be measured against. -/
  | range (quantity : Quantity)

/-- The order in which a row is checked. -/
def RowCheck.inOrder : List RowCheck :=
  [.columnCount, .number (.cost .tree), .number (.cost .dag), .number .time,
    .range (.cost .tree), .range (.cost .dag), .range .time]

/-- The place of the column of a quantity, counted from zero. -/
def columnOf : Quantity → Nat
  | .cost .tree => 2
  | .cost .dag => 3
  | .time => 4

/-- A number can be measured against. Every quantity must be finite, and a runtime must not be
negative. -/
def inRange : Quantity → Double → Bool
  | .cost _, x => x.isFinite
  | .time, x => x.isFinite && decide (((0 : Nat) : Double) ≤ x)

/-- The defect that a check finds in a line, whatever the other checks find. -/
def RowCheck.defect? (line : List Char) : RowCheck → Option (LineDefect Double)
  | .columnCount =>
    if (Text.columns line).length = 5 then none else some (.columnCount (Text.columns line).length)
  | .number quantity =>
    (Text.columns line)[columnOf quantity]?.bind fun column =>
      if (Decimal.read? column).isSome then none
        else some (.notNumber quantity (String.ofList column))
  | .range quantity =>
    ((Text.columns line)[columnOf quantity]?.bind Decimal.read?).bind fun x =>
      if inRange quantity x then none else some (.outOfRange quantity x)

/-- The checks of the ranges find the first number that is out of range. -/
theorem findSome?_range
    (htree : (Text.columns line)[columnOf (.cost .tree)]?.bind Decimal.read? = some m.tree)
    (hdag : (Text.columns line)[columnOf (.cost .dag)]?.bind Decimal.read? = some m.dag)
    (hmicros : (Text.columns line)[columnOf .time]?.bind Decimal.read? = some m.micros) :
    [RowCheck.range (.cost .tree), .range (.cost .dag), .range .time].findSome?
    (RowCheck.defect? line) =
      m.outOfRange?.map fun found => .outOfRange found.1 found.2 := by
  have htime : isRuntime m.micros = inRange .time m.micros := rfl
  simp only [List.findSome?_cons, List.findSome?_nil, RowCheck.defect?, htree, hdag, hmicros,
    Option.bind_some]
  rw [outOfRange?, htime]
  show _ = Option.map _ (if (!inRange (.cost .tree) m.tree) = true then _
    else if (!inRange (.cost .dag) m.dag) = true then _ else _)
  cases inRange (.cost .tree) m.tree with
  | false => rfl
  | true =>
    cases inRange (.cost .dag) m.dag with
    | false => rfl
    | true => cases inRange .time m.micros <;> rfl

/-- A row is refused for the first check that finds a defect. -/
theorem ofRow_eq_error_iff {defect : LineDefect Double} :
    ofRow path line = .error defect ↔
      RowCheck.inOrder.findSome? (RowCheck.defect? line) = some defect := by
  unfold ofRow
  split
  · rename_i name extractor tree dag micros hcolumns
    rw [RowCheck.inOrder, List.findSome?_cons, List.findSome?_cons, List.findSome?_cons,
      List.findSome?_cons]
    simp only [RowCheck.defect?, hcolumns, columnOf]
    cases htree : Decimal.read? tree with
    | none => simp [readColumn, htree, bind, Except.bind]
    | some x =>
      cases hdag : Decimal.read? dag with
      | none => simp [readColumn, htree, hdag, bind, Except.bind]
      | some y =>
        cases hmicros : Decimal.read? micros with
        | none => simp [readColumn, htree, hdag, hmicros, bind, Except.bind]
        | some z =>
          have hrange := @findSome?_range line
            ⟨String.ofList name, String.ofList extractor, x, y, z, path, path.parent⟩
              (by simpa [hcolumns, columnOf])
            (by simpa [hcolumns, columnOf]) (by simpa [hcolumns, columnOf])
          simp only [readColumn, htree, hdag, hmicros, bind, Except.bind, hrange]
          split
          · rename_i found
            simp [htree, hdag, hmicros, found]
          · rename_i hnone
            simp [htree, hdag, hmicros, hnone]
  · rename_i hcolumns
    have hlength : (Text.columns line).length ≠ 5 := by
      intro h
      match hmatch : Text.columns line, h with
      | [name, extractor, tree, dag, micros], _ => exact hcolumns _ _ _ _ _ hmatch
    rw [RowCheck.inOrder, List.findSome?_cons, RowCheck.defect?, if_neg hlength]
    simp

/-! ## The lines of a table -/

/-- A line is skipped: it is blank, or it is the first one and starts as the heading does. Places
are counted from zero. -/
def isSkipped (place : Nat) (line : List Char) : Bool :=
  isBlankLine line || (place == 0 && isHeading line)

/-- The lines that are not skipped, each with its place. -/
def rowsFrom (place : Nat) (lines : List (List Char)) : List (List Char × Nat) :=
  (lines.zipIdx place).filter fun row => !isSkipped row.2 row.1

/-- The result in a line, or its defect with the number of the line. -/
def rowAt (path : Path) (row : List Char × Nat) : Except (Fault Double) (Measurement Double) :=
  (ofRow path row.1).mapError (.line path (row.2 + 1))

theorem ofRow_trim (path : Path) (line : List Char) :
    ofRow path (Text.trim line) = ofRow path line := by
  unfold ofRow
  rw [Text.columns_trim]

/-- The lines that are not skipped are read one after another. -/
theorem ofLines_eq_mapM (path : Path) (place : Nat) (lines : List (List Char)) :
    ofLines path (place + 1) lines = (rowsFrom place lines).mapM (rowAt path) := by
  induction lines generalizing place with
  | nil => rfl
  | cons line lines ih =>
    have hnoRow : isNoRow (place + 1 == 1) (Text.trim line) = isSkipped place line := by
      simp [isNoRow_trim, isSkipped]
    rw [rowsFrom, List.zipIdx_cons]
    by_cases hskipped : isSkipped place line = true
    · rw [List.filter_cons_of_neg (by simp [hskipped]),
        ofLines_cons_of_noRow (hnoRow.trans hskipped), ih]
      rfl
    · rw [List.filter_cons_of_pos (by simp [hskipped]), List.mapM_cons, ← rowsFrom, ← ih, ofLines,
        hnoRow, if_neg hskipped, ofRow_trim, rowAt]
      cases ofRow path line with
      | error defect => rfl
      | ok m =>
        show (ofLines path (place + 1 + 1) lines).map (m :: ·) =
          ofLines path (place + 1 + 1) lines >>= _
        cases ofLines path (place + 1 + 1) lines <;> rfl

theorem mem_rowsFrom_iff {place : Nat} :
    (line, place) ∈ rowsFrom 0 lines ↔
      lines[place]? = some line ∧ isSkipped place line = false := by
  simp [rowsFrom, List.mem_zipIdx_iff_getElem?]

theorem pairwise_rowsFrom (place : Nat) (lines : List (List Char)) :
    (rowsFrom place lines).Pairwise fun row row' => row.2 < row'.2 := by
  have hplaces : ((lines.zipIdx place).map Prod.snd).Pairwise (· < ·) := by
    rw [List.zipIdx_map_snd]
    exact List.pairwise_lt_range' 1
  exact (List.pairwise_map.mp hplaces).filter _

theorem rowAt_eq_ok_iff {row : List Char × Nat} : rowAt path row = .ok m ↔ Holds path row.1 m := by
  rw [rowAt, mapError_eq_ok_iff, ofRow_eq_ok_iff]

theorem rowAt_eq_error_iff {row : List Char × Nat} {fault : Fault Double} :
    rowAt path row = .error fault ↔
      ∃ defect, RowCheck.inOrder.findSome? (RowCheck.defect? row.1) = some defect ∧
        fault = .line path (row.2 + 1) defect := by
  have hrow := fun defect => @ofRow_eq_error_iff path row.1 defect
  simp only [← hrow]
  rw [rowAt]
  cases ofRow path row.1 with
  | error defect => simp [Except.mapError, eq_comm]
  | ok m => simp [Except.mapError]

/-- The line at a place, if there is one, is skipped or holds a result. -/
def Sound (path : Path) (lines : List (List Char)) (place : Nat) : Prop :=
  ∀ line, lines[place]? = some line → isSkipped place line = true ∨ ∃ m, Holds path line m

theorem sound_iff {place : Nat} :
    Sound path lines place ↔
      ∀ line, (line, place) ∈ rowsFrom 0 lines → ∃ m, rowAt path (line, place) = .ok m := by
  refine forall_congr' fun line => ?_
  simp only [mem_rowsFrom_iff, rowAt_eq_ok_iff]
  cases isSkipped place line <;> simp

/-- A table is read exactly if every line is skipped or holds a result, and then it has the results
of the lines that are not skipped, in order. Otherwise it is refused for the first line that is not
sound, and this line is told with the first of its defects. -/
theorem ofTable_decided (contents : String) (path : Path) :
    let lines := Text.lines contents.toList
    ((∃ ms, ofTable contents path = .ok ms) ↔ ∀ place, Sound path lines place) ∧
      (∀ ms, ofTable contents path = .ok ms ↔
        List.Forall₂ (Holds path) ((rowsFrom 0 lines).map (·.1)) ms) ∧
      ∀ fault, ofTable contents path = .error fault ↔
        ∃ place line defect, lines[place]? = some line ∧ isSkipped place line = false ∧
          (¬ ∃ m, Holds path line m) ∧
          (∀ earlier < place, Sound path lines earlier) ∧
          RowCheck.inOrder.findSome? (RowCheck.defect? line) = some defect ∧
          fault = .line path (place + 1) defect := by
  intro lines
  have hread : ofTable contents path = (rowsFrom 0 lines).mapM (rowAt path) :=
    ofLines_eq_mapM path 0 lines
  rw [hread]
  refine ⟨?_, fun ms => ?_, fun fault => ?_⟩
  · rw [exists_mapM_eq_ok_iff]
    simp only [sound_iff]
    exact ⟨fun h place line hmem => h _ hmem, fun h row hmem => h row.2 row.1 hmem⟩
  · rw [mapM_eq_ok_iff, List.forall₂_map_left_iff]
    simp only [rowAt_eq_ok_iff]
  · rw [mapM_eq_error_iff_of_pairwise (fun row row' => Nat.lt_asymm) (pairwise_rowsFrom 0 lines)]
    constructor
    · rintro ⟨⟨line, place⟩, hmem, hearlier, herror⟩
      obtain ⟨defect, hdefect, rfl⟩ := rowAt_eq_error_iff.mp herror
      obtain ⟨hline, hskipped⟩ := mem_rowsFrom_iff.mp hmem
      refine ⟨place, line, defect, hline, hskipped, ?_, fun earlier hlt => ?_, hdefect, rfl⟩
      · rintro ⟨m, hm⟩
        rw [rowAt_eq_ok_iff.mpr hm] at herror
        cases herror
      · exact sound_iff.mpr fun line' hmem' => hearlier (line', earlier) hmem' hlt
    · rintro ⟨place, line, defect, hline, hskipped, -, hearlier, hdefect, rfl⟩
      refine ⟨(line, place), mem_rowsFrom_iff.mpr ⟨hline, hskipped⟩, fun row hmem hlt => ?_, ?_⟩
      · exact sound_iff.mp (hearlier row.2 hlt) row.1 hmem
      · exact rowAt_eq_error_iff.mpr ⟨defect, hdefect, rfl⟩

end ExtractionBench.Measurement
