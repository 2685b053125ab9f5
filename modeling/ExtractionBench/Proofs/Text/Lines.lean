import Mathlib.Tactic
import ExtractionBench.Text.Lines

/-!
# The lines of texts put together

A text that is empty or ends in a newline leaves no line open. What is put behind it starts a line
of its own, so the lines of both together are those of the one and then those of the other.
-/

namespace ExtractionBench.Text

variable {text : List Char}

/-- A text is empty, or ends in a newline. -/
def EndsLine (text : List Char) : Prop := text = [] ∨ text.getLast? = some '\n'

instance decidableEndsLine (text : List Char) : Decidable (EndsLine text) :=
  inferInstanceAs (Decidable (_ ∨ _))

/-- A newline ends a line, whatever follows it. -/
theorem linesFrom_append_newline (current front more : List Char) :
    linesFrom current (front ++ '\n' :: more) =
      linesFrom current (front ++ ['\n']) ++ linesFrom [] more := by
  induction front generalizing current with
  | nil => simp [linesFrom]
  | cons c front ih =>
    rw [List.cons_append, List.cons_append, linesFrom, linesFrom]
    split
    · rw [ih, List.cons_append]
    · exact ih (c :: current)

/-- Behind a text that ends its last line another one starts on a line of its own. -/
theorem lines_append (h : EndsLine text) (more : List Char) :
    lines (text ++ more) = lines text ++ lines more := by
  rcases h with rfl | hlast
  · rfl
  · obtain ⟨front, rfl⟩ := List.getLast?_eq_some_iff.mp hlast
    rw [List.append_assoc]
    exact linesFrom_append_newline [] front more

end ExtractionBench.Text
