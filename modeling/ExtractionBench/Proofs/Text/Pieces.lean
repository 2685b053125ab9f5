import Mathlib.Tactic

/-!
# Pieces between separators

A text has no separator in it, or it is put together from two texts with a separator in between.
Along this its pieces are found: those of a text put together are the pieces of one part and then
those of the other.
-/

namespace ExtractionBench.Text

variable {d : Char} {text x y : List Char}

/-- A text has no separator, or there is one between two parts of it. -/
@[elab_as_elim]
theorem separator_induction {motive : List Char → Prop} (d : Char)
    (whole : ∀ text, d ∉ text → motive text)
    (parts : ∀ x y, motive x → motive y → motive (x ++ d :: y)) (text : List Char) :
    motive text := by
  induction hlength : text.length using Nat.strong_induction_on generalizing text with
  | h n ih =>
    subst hlength
    by_cases hmem : d ∈ text
    · obtain ⟨x, y, rfl⟩ := List.append_of_mem hmem
      exact parts x y (ih x.length (by simp) x rfl) (ih y.length (by simp; omega) y rfl)
    · exact whole text hmem

theorem splitOn_append_cons (x y : List Char) (d : Char) :
    (x ++ d :: y).splitOn d = x.splitOn d ++ y.splitOn d := by
  simp only [List.splitOn_eq_splitOnP]
  exact List.splitOnP_append_cons x y (beq_self_eq_true d)

/-- A text that is added behind, without a separator in it, lengthens the last piece. -/
theorem splitOn_append {pieces : List (List Char)} {last : List Char} (hd : d ∉ y)
    (h : text.splitOn d = pieces ++ [last]) : (text ++ y).splitOn d = pieces ++ [last ++ y] := by
  induction text using separator_induction d generalizing pieces with
  | whole text hmem =>
    rw [List.splitOn_eq_singleton hmem, ← List.nil_append [text]] at h
    obtain ⟨rfl, hlast⟩ := List.append_inj' h rfl
    obtain rfl := List.singleton_inj.mp hlast
    rw [List.splitOn_eq_singleton (by simp [hmem, hd]), List.nil_append]
  | parts front behind _ ih =>
    obtain ⟨others, last', hbehind⟩ :=
      (List.eq_nil_or_concat' (behind.splitOn d)).resolve_left (List.splitOn_ne_nil d behind)
    rw [splitOn_append_cons, hbehind, ← List.append_assoc] at h
    obtain ⟨rfl, hlast⟩ := List.append_inj' h rfl
    obtain rfl := List.singleton_inj.mp hlast
    rw [List.append_assoc, List.cons_append, splitOn_append_cons, ih hbehind, List.append_assoc]

/-- No piece has the separator in it. -/
theorem not_mem_of_mem_splitOn (h : x ∈ text.splitOn d) : d ∉ x := by
  induction text using separator_induction d with
  | whole text hmem =>
    rw [List.splitOn_eq_singleton hmem, List.mem_singleton] at h
    exact h ▸ hmem
  | parts front behind ih₁ ih₂ =>
    rw [splitOn_append_cons, List.mem_append] at h
    rcases h with h | h
    · exact ih₁ h
    · exact ih₂ h

end ExtractionBench.Text
