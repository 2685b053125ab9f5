/-!
# Blanks

White space as Unicode has it (the property `White_Space`), and text without the white space around
it.
-/

namespace ExtractionBench.Text

/-- White space: tab to carriage return, the space, the next-line control, the no-break spaces, the
typographic spaces and the two separators. The zero-width space is not one. -/
def isBlank (c : Char) : Bool :=
  let n := c.toNat
  (0x09 ≤ n && n ≤ 0x0d) || n == 0x20 || n == 0x85 || n == 0xa0 || n == 0x1680 ||
    (0x2000 ≤ n && n ≤ 0x200a)
    || n == 0x2028 || n == 0x2029 || n == 0x202f || n == 0x205f || n == 0x3000

/-- The text without the blanks it starts with. -/
def trimStart (cs : List Char) : List Char := cs.dropWhile isBlank

/-- The text without the blanks it ends with. -/
def trimEnd (cs : List Char) : List Char := (cs.reverse.dropWhile isBlank).reverse

/-- The text without the blanks around it. -/
def trim (cs : List Char) : List Char := trimEnd (trimStart cs)

/-- What is left starts with no blank. -/
theorem isBlank_of_head?_trimStart {cs : List Char} {c : Char} (h : (trimStart cs).head? = some c) :
    isBlank c = false := by
  have first := List.head?_dropWhile_not isBlank cs
  rw [trimStart] at h
  rw [h] at first
  simpa using first

/-- What is left ends with no blank. -/
theorem isBlank_of_getLast?_trimEnd {cs : List Char} {c : Char}
    (h : (trimEnd cs).getLast? = some c) :
    isBlank c = false := by
  have last := List.head?_dropWhile_not isBlank cs.reverse
  rw [trimEnd, List.getLast?_reverse] at h
  rw [h] at last
  simpa using last

/-- The ASCII white space of the core library is blank. -/
theorem isBlank_of_isWhitespace {c : Char} (h : c.isWhitespace = true) : isBlank c = true := by
  simp only [Char.isWhitespace, Bool.or_eq_true, decide_eq_true_eq] at h
  rcases h with ((rfl | rfl) | rfl) | rfl <;> decide

end ExtractionBench.Text
