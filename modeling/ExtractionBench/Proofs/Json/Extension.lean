import Mathlib.Tactic
import ExtractionBench.Json.Token
import ExtractionBench.Proofs.Traversal

/-!
# Readers on longer texts

A reader takes what it takes from the front of a text, and does not look beyond it, but for a
number: that one ends where no further byte of a number stands. So what is read from a text is read
alike from every longer one, unless nothing is left behind it that keeps a number from going on
(`Extends`). This is kept when readers follow each other, so it is shown for the readers of tokens
and holds for those that are made of them.
-/

namespace ExtractionBench.Json

/-- The text starts with no byte that a number can go on with. -/
def EndsNumber : List UInt8 → Prop
  | [] => True
  | b :: _ => isDigit b = false ∧ b ≠ byte '.' ∧ b ≠ byte 'e' ∧ b ≠ byte 'E'

/-- A text can go on behind what a reader left of it: no number is read on. -/
def Seam (left more : List UInt8) : Prop := left = [] → EndsNumber more

theorem Seam.of_suffix {left left' more : List UInt8} (h : Seam left more)
    (hleft : left <:+ left') :
    Seam left' more := by
  intro hnil
  rw [hnil] at hleft
  exact h (List.suffix_nil.mp hleft)

theorem EndsNumber.startsWithDigit {more : List UInt8} (h : EndsNumber more) :
    startsWithDigit more = false := by
  cases more with
  | nil => rfl
  | cons b more => exact h.1

theorem Seam.startsWithDigit {left more : List UInt8} (h : Seam left more) (hleft : left = []) :
    startsWithDigit more = false :=
  (h hleft).startsWithDigit

/-- What ends a number can follow whatever is left. -/
theorem EndsNumber.seam {more : List UInt8} (h : EndsNumber more) (left : List UInt8) :
    Seam left more := fun _ => h

/-- Behind what is not all taken anything can follow. -/
theorem seam_cons (b : UInt8) (left more : List UInt8) : Seam (b :: left) more := fun h => nomatch h

/-- What `read` takes from a text, `read'` takes from every text that goes on behind it. The last
that is taken is `last`. -/
structure Extends {α : Type} (last : List UInt8) (read read' : Reader α) : Prop where
  take : ∀ {input : List UInt8} {x : α} {after : List UInt8}, read input = .ok (x, after) →
    last ++ after <:+ input ∧ ∀ more, Seam (last ++ after) more →
      read' (input ++ more) = .ok (x, after ++ more)

namespace Extends

variable {α β : Type} {last : List UInt8} {read read' : Reader α}

theorem of_ne_ok (h : ∀ input r, read input ≠ .ok r) : Extends last read read' := by
  constructor
  intro input x after hread
  exact absurd hread (h input (x, after))

/-- What was taken last need not be told. -/
theorem forget (h : Extends last read read') : Extends [] read read' := by
  constructor
  intro input x after hread
  obtain ⟨hsuffix, hmore⟩ := h.take hread
  refine ⟨(List.suffix_append last after).trans hsuffix, ?_⟩
  intro more hseam
  exact hmore more (hseam.of_suffix (List.suffix_append last after))

/-- Behind a reader that takes a byte last, anything may follow. -/
theorem append {b : UInt8} (h : Extends [b] read read') {input after : List UInt8} {x : α}
    (hread : read input = .ok (x, after)) (more : List UInt8) :
    read' (input ++ more) = .ok (x, after ++ more) :=
  (h.take hread).2 more (seam_cons b after more)

/-- Readers one behind the other read on in the same way if each of them does. -/
theorem bind (h : Extends [] read read') {next next' : α → Reader β}
    (hnext : ∀ x, Extends last (next x) (next' x)) :
    Extends last (fun input => read input >>= fun r => next r.1 r.2)
      (fun input => read' input >>= fun r => next' r.1 r.2) := by
  constructor
  intro input y after hread
  obtain ⟨⟨x, middle⟩, hfirst, hsecond⟩ := bind_eq_ok_iff.mp hread
  obtain ⟨hmiddle, hmore⟩ := h.take hfirst
  obtain ⟨hafter, hmore'⟩ := (hnext x).take hsecond
  refine ⟨hafter.trans hmiddle, ?_⟩
  intro more hseam
  refine bind_eq_ok_iff.mpr ⟨(x, middle ++ more), ?_, hmore' more hseam⟩
  exact hmore more (hseam.of_suffix hafter)

/-- What is read is looked at once more, and no more of the text is taken. -/
theorem inspect (h : Extends last read read') (next next' : α → Reader β)
    (hnext : ∀ x middle y after, next x middle = .ok (y, after) →
      after = middle ∧ ∀ more, next' x (middle ++ more) = .ok (y, middle ++ more)) :
    Extends last (fun input => read input >>= fun r => next r.1 r.2)
      (fun input => read' input >>= fun r => next' r.1 r.2) := by
  constructor
  intro input y after hread
  obtain ⟨⟨x, middle⟩, hfirst, hsecond⟩ := bind_eq_ok_iff.mp hread
  obtain ⟨rfl, hmore'⟩ := hnext x middle y after hsecond
  obtain ⟨hsuffix, hmore⟩ := h.take hfirst
  refine ⟨hsuffix, ?_⟩
  intro more hseam
  exact bind_eq_ok_iff.mpr ⟨(x, after ++ more), hmore more hseam, hmore' more⟩

/-- What is made of the result does not matter. -/
theorem map (h : Extends last read read') (f : α → β) :
    Extends last (fun input => (read input).map fun r => (f r.1, r.2))
      (fun input => (read' input).map fun r => (f r.1, r.2)) := by
  constructor
  intro input y after hread
  obtain ⟨⟨x, middle⟩, hfirst, hsecond⟩ := map_eq_ok_iff.mp hread
  cases hsecond
  obtain ⟨hsuffix, hmore⟩ := h.take hfirst
  refine ⟨hsuffix, ?_⟩
  intro more hseam
  exact map_eq_ok_iff.mpr ⟨(x, middle ++ more), hmore more hseam, rfl⟩

end Extends

/-! ## White space -/

theorem skipSpace_append_of_nil {input : List UInt8} (h : skipSpace input = [])
    (rest : List UInt8) :
    skipSpace (input ++ rest) = skipSpace rest := by
  unfold skipSpace at h ⊢
  rw [List.dropWhile_append, h]
  rfl

theorem skipSpace_append_of_cons {input more : List UInt8} {b : UInt8}
    (h : skipSpace input = b :: more) (rest : List UInt8) :
    skipSpace (input ++ rest) = b :: (more ++ rest) := by
  unfold skipSpace at h ⊢
  rw [List.dropWhile_append, h]
  rfl

theorem EndsNumber.of_isSpace {b : UInt8} (h : isSpace b = true) (rest : List UInt8) :
    EndsNumber (b :: rest) := by
  have hspace : b = byte ' ' ∨ b = byte '\n' ∨ b = byte '\t' ∨ b = byte '\r' := by
    simpa only [isSpace, Bool.or_eq_true, beq_iff_eq, or_assoc] using h
  rcases hspace with rfl | rfl | rfl | rfl <;> exact ⟨by decide, by decide, by decide, by decide⟩

section
variable {blank : List UInt8} (h : ∀ b ∈ blank, isSpace b = true)

include h

theorem skipSpace_blank_append (rest : List UInt8) : skipSpace (blank ++ rest) = skipSpace rest :=
  List.dropWhile_append_of_pos h

theorem EndsNumber.blank_append {rest : List UInt8} (hrest : EndsNumber rest) :
    EndsNumber (blank ++ rest) := by
  cases blank with
  | nil => exact hrest
  | cons b bytes => exact EndsNumber.of_isSpace (h b List.mem_cons_self) _

end

theorem skipSpace_suffix (input : List UInt8) : skipSpace input <:+ input :=
  List.dropWhile_suffix isSpace

/-- A reader that looks at the first byte behind the white space. -/
theorem Extends.of_skipSpace {α : Type} {last : List UInt8} {read read' : Reader α}
    (next next' : UInt8 → Reader α) (hnil : ∀ input, skipSpace input = [] → ∀ r, read input ≠ .ok r)
    (hcons : ∀ input b rest, skipSpace input = b :: rest → read input = next b rest)
    (hcons' : ∀ input b rest, skipSpace input = b :: rest → read' input = next' b rest)
    (hnext : ∀ b, Extends last (next b) (next' b)) : Extends last read read' := by
  constructor
  intro input x after hread
  cases hskip : skipSpace input with
  | nil => exact absurd hread (hnil input hskip _)
  | cons b rest =>
    rw [hcons input b rest hskip] at hread
    obtain ⟨hsuffix, hmore⟩ := (hnext b).take hread
    refine ⟨hsuffix.trans ?_, ?_⟩
    · have hskipped := skipSpace_suffix input
      rw [hskip] at hskipped
      exact (List.suffix_cons b rest).trans hskipped
    · intro more hseam
      rw [hcons' _ b (rest ++ more) (skipSpace_append_of_cons hskip more)]
      exact hmore more hseam

end ExtractionBench.Json
