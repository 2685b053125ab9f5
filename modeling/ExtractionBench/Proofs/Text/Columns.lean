import Mathlib.Tactic
import ExtractionBench.Text.Lines

/-!
# The columns of a line

The blanks around a line are blanks around its first and its last column, so a line has the same
columns with and without them.
-/

namespace ExtractionBench.Text

variable {c : Char} {cs line : List Char}

/-- A comma is no blank. -/
theorem ne_comma_of_isBlank (h : isBlank c = true) : c ≠ ',' := by
  rintro rfl
  exact absurd h (by decide)

/-! ## Blanks at either end -/

theorem trim_cons (h : isBlank c = true) (cs : List Char) : trim (c :: cs) = trim cs := by
  rw [trim, trimStart, List.dropWhile_cons_of_pos h]
  rfl

theorem trimEnd_concat (cs : List Char) (c : Char) :
    trimEnd (cs ++ [c]) = if isBlank c = true then trimEnd cs else cs ++ [c] := by
  rw [trimEnd, List.reverse_concat, List.dropWhile_cons]
  split
  · rfl
  · rw [List.reverse_cons, List.reverse_reverse]

theorem trim_concat (h : isBlank c = true) (cs : List Char) : trim (cs ++ [c]) = trim cs := by
  unfold trim trimStart
  rw [List.dropWhile_append]
  split
  · rename_i hempty
    rw [List.isEmpty_iff.mp hempty, List.dropWhile_cons_of_pos h, List.dropWhile_nil]
  · rw [trimEnd_concat, if_pos h]

/-- A text neither starts nor ends with a blank. -/
structure Trimmed (cs : List Char) : Prop where
  head : ∀ c ∈ cs.head?, isBlank c = false
  last : ∀ c ∈ cs.getLast?, isBlank c = false

/-- A text that was trimmed has no blanks at its ends. -/
theorem trimmed_trim (cs : List Char) : Trimmed (trim cs) := by
  refine ⟨fun c hc => ?_, fun c hc => isBlank_of_getLast?_trimEnd hc⟩
  obtain ⟨behind, hbehind⟩ : trim cs <+: trimStart cs :=
    List.reverse_suffix.mp (by simpa [trim, trimEnd] using List.dropWhile_suffix isBlank)
  have hfirst : (trimStart cs).head? = some c := by
    rw [← hbehind, List.head?_append, Option.mem_def.mp hc]
    rfl
  exact isBlank_of_head?_trimStart hfirst

theorem Trimmed.trim_eq (h : Trimmed cs) : trim cs = cs := by
  have hstart : trimStart cs = cs := by
    cases cs with
    | nil => rfl
    | cons c cs => exact List.dropWhile_cons_of_neg (by simp [h.head c rfl])
  rw [trim, hstart]
  rcases List.eq_nil_or_concat' cs with rfl | ⟨front, c, rfl⟩
  · rfl
  · rw [trimEnd_concat, if_neg (by simp [h.last c List.getLast?_concat])]

/-! ## Columns -/

/-- Columns have no blanks around them. -/
theorem trimmed_of_mem_columns {column : List Char} (h : column ∈ columns line) :
    Trimmed column := by
  obtain ⟨piece, -, rfl⟩ := List.mem_map.mp h
  exact trimmed_trim piece

theorem columns_cons (h : isBlank c = true) (line : List Char) :
    columns (c :: line) = columns line := by
  have hcomma : ¬ (c == ',') = true := by simpa using ne_comma_of_isBlank h
  unfold columns
  rw [List.splitOn_cons_eq_if_modifyHead, if_neg hcomma]
  obtain ⟨first, rest, hsplit⟩ := List.exists_cons_of_ne_nil (List.splitOn_ne_nil ',' line)
  rw [hsplit, List.modifyHead_cons, List.map_cons, List.map_cons, trim_cons h]

/-- A character that is no comma lengthens the last column. -/
theorem exists_splitOn_concat (h : c ≠ ',') (line : List Char) :
    ∃ others last, line.splitOn ',' = others ++ [last] ∧
      (line ++ [c]).splitOn ',' = others ++ [last ++ [c]] := by
  induction line with
  | nil => exact ⟨[], [], rfl, List.splitOn_eq_singleton (by simpa using h.symm)⟩
  | cons d line ih =>
    obtain ⟨others, last, hline, hconcat⟩ := ih
    rw [List.cons_append, List.splitOn_cons_eq_if_modifyHead, List.splitOn_cons_eq_if_modifyHead,
      hline, hconcat]
    split
    · exact ⟨[] :: others, last, rfl, rfl⟩
    · cases others with
      | nil => exact ⟨[], d :: last, rfl, rfl⟩
      | cons first others => exact ⟨(d :: first) :: others, last, rfl, rfl⟩

theorem columns_concat (h : isBlank c = true) (line : List Char) :
    columns (line ++ [c]) = columns line := by
  obtain ⟨others, last, hline, hconcat⟩ := exists_splitOn_concat (ne_comma_of_isBlank h) line
  unfold columns
  rw [hline, hconcat, List.map_append, List.map_append, List.map_singleton, List.map_singleton,
    trim_concat h]

theorem columns_trimStart (line : List Char) : columns (trimStart line) = columns line := by
  induction line with
  | nil => rfl
  | cons c line ih =>
    rw [trimStart, List.dropWhile_cons]
    split
    · rename_i h
      rw [columns_cons h]
      exact ih
    · rfl

theorem columns_trimEnd (line : List Char) : columns (trimEnd line) = columns line := by
  induction line using List.reverseRecOn with
  | nil => rfl
  | append_singleton line c ih =>
    rw [trimEnd_concat]
    split
    · rename_i h
      rw [columns_concat h, ih]
    · rfl

/-- A line has the columns that it has without the blanks around it. -/
theorem columns_trim (line : List Char) : columns (trim line) = columns line := by
  rw [trim, columns_trimEnd, columns_trimStart]

end ExtractionBench.Text
