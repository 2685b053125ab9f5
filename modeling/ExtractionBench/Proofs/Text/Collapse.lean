import Mathlib.Tactic
import ExtractionBench.Proofs.Text.Replace

/-!
# Repetitions made one

Wherever a unit stands twice in a row in a text, it is left once. This is done in one pass, so of
three in a row two are left. The unit starts with a mark that it has nowhere else; other patterns
with that mark, and what stands before the first mark, are not touched.
-/

namespace ExtractionBench.Text

/-- The text with one `unit` for every two in a row. -/
def collapse (unit text : List Char) : List Char := replaceAll (unit ++ unit) unit text

variable {mark c : Char} {tail other text rest x v : List Char}

theorem twice_ne_nil (mark : Char) (tail : List Char) : mark :: tail ++ mark :: tail ≠ [] := by simp

theorem collapse_twice (mark : Char) (tail rest : List Char) :
    collapse (mark :: tail) (mark :: tail ++ mark :: tail ++ rest) =
      mark :: tail ++ collapse (mark :: tail) rest :=
  replaceAll_append (twice_ne_nil mark tail) rest

theorem collapse_cons (h : ¬ mark :: tail ++ mark :: tail <+: c :: rest) :
    collapse (mark :: tail) (c :: rest) = c :: collapse (mark :: tail) rest :=
  replaceAll_cons h

theorem infix_append_of_not_mem (hv : mark ∉ v) :
    mark :: tail <:+: v ++ x ↔ mark :: tail <:+: x := by
  induction v with
  | nil => rw [List.nil_append]
  | cons c v ih =>
    obtain ⟨hc, hv⟩ := List.ne_and_not_mem_of_not_mem_cons hv
    rw [List.cons_append, List.infix_cons_iff, List.cons_prefix_cons, ih hv]
    simp [hc]

/-- A pattern with the mark starts where the unit does or behind it. -/
theorem infix_unit_append (hmark : mark ∉ tail) :
    mark :: other <:+: mark :: tail ++ x ↔ other <+: tail ++ x ∨ mark :: other <:+: x := by
  rw [List.cons_append, List.infix_cons_iff, List.cons_prefix_cons, infix_append_of_not_mem hmark]
  simp

/-! ## Beginnings -/

theorem prefix_collapse_iff (hv : mark ∉ v) : v <+: collapse (mark :: tail) text ↔ v <+: text := by
  have h : v ++ [] <+: collapse (mark :: tail) text ↔ v ++ [] <+: text :=
    prefix_replaceAll_iff hv [] (fun _ => by simp) text
  rwa [List.append_nil] at h

theorem unit_prefix_collapse_iff (hmark : mark ∉ tail) :
    mark :: tail <+: collapse (mark :: tail) text ↔ mark :: tail <+: text := by
  induction text using occurrence_induction (twice_ne_nil mark tail) with
  | nil => simp [collapse]
  | found rest _ =>
    rw [collapse_twice, List.append_assoc]
    exact iff_of_true (List.prefix_append _ _) (List.prefix_append _ _)
  | kept c rest hno _ =>
    rw [collapse_cons hno, List.cons_prefix_cons, List.cons_prefix_cons, prefix_collapse_iff hmark]

/-! ## What is in the text -/

/-- Another pattern with the mark is in the text before and after. -/
theorem infix_collapse_iff (hmark : mark ∉ tail) (hother : mark ∉ other) (h : ¬ other <+: tail)
    (h' : ¬ tail <+: other) :
    mark :: other <:+: collapse (mark :: tail) text ↔ mark :: other <:+: text := by
  induction text using occurrence_induction (twice_ne_nil mark tail) with
  | nil => simp [collapse]
  | found rest ih =>
    have hfront : ∀ x, ¬ other <+: tail ++ x := by
      intro x hx
      rcases List.prefix_or_prefix_of_prefix hx (List.prefix_append tail x) with hx | hx
      · exact h hx
      · exact h' hx
    rw [collapse_twice, List.append_assoc, infix_unit_append hmark, infix_unit_append hmark,
      infix_unit_append hmark, ih]
    simp [hfront]
  | kept c rest hno ih =>
    rw [collapse_cons hno, List.infix_cons_iff, List.infix_cons_iff, List.cons_prefix_cons,
      List.cons_prefix_cons, prefix_collapse_iff hother, ih]

/-- Two units in a row are left where there were three. -/
theorem twice_infix_collapse_iff (hmark : mark ∉ tail) :
    mark :: tail ++ mark :: tail <:+: collapse (mark :: tail) text ↔
      mark :: tail ++ (mark :: tail ++ mark :: tail) <:+: text := by
  induction text using occurrence_induction (twice_ne_nil mark tail) with
  | nil => simp [collapse]
  | found rest ih =>
    have hshort : mark :: tail ++ mark :: tail <+: rest → mark :: tail <+: rest :=
      (List.prefix_append _ _).trans
    have hleft : mark :: tail ++ mark :: tail <:+: mark :: tail ++ collapse (mark :: tail) rest ↔
        mark :: tail <+: rest ∨ mark :: tail ++ mark :: tail <:+: collapse (mark :: tail) rest := by
      rw [List.cons_append, infix_unit_append hmark, List.prefix_append_right_inj,
        unit_prefix_collapse_iff hmark]
    have hright :
        mark :: tail ++ (mark :: tail ++ mark :: tail) <:+: mark :: tail ++ (mark :: tail ++ rest) ↔
        mark :: tail <+: rest ∨ mark :: tail ++ (mark :: tail ++ mark :: tail) <:+: rest := by
      rw [List.cons_append, infix_unit_append hmark, infix_unit_append hmark,
        List.prefix_append_right_inj, List.prefix_append_right_inj, List.prefix_append_right_inj]
      tauto
    rw [collapse_twice, List.append_assoc _ _ rest, hleft, hright, ih]
  | kept c rest hno ih =>
    have hleft : ¬ mark :: tail ++ mark :: tail <+: c :: collapse (mark :: tail) rest := by
      intro h
      obtain ⟨hc, hrest⟩ := List.cons_prefix_cons.mp h
      have hfront : tail ++ mark :: tail <+: rest :=
        (prefix_replaceAll_iff hmark (mark :: tail) (fun _ => unit_prefix_collapse_iff hmark)
          rest).mp hrest
      exact hno (List.cons_prefix_cons.mpr ⟨hc, hfront⟩)
    have hright : ¬ mark :: tail ++ (mark :: tail ++ mark :: tail) <+: c :: rest := by
      rw [← List.append_assoc]
      exact fun h => hno ((List.prefix_append _ _).trans h)
    rw [collapse_cons hno, List.infix_cons_iff, List.infix_cons_iff, ih]
    exact or_congr (iff_of_false hleft hright) Iff.rfl

/-! ## Ends -/

theorem collapse_unit (mark : Char) (tail : List Char) :
    collapse (mark :: tail) (mark :: tail) = mark :: tail := by
  refine replaceAll_eq_self (twice_ne_nil mark tail) fun h => ?_
  have hlength := h.length_le
  simp at hlength

theorem suffix_collapse (hmark : mark ∉ tail) (h : mark :: tail <:+ text) :
    mark :: tail <:+ collapse (mark :: tail) text := by
  induction text using occurrence_induction (twice_ne_nil mark tail) with
  | nil => simp at h
  | found rest ih =>
    rw [collapse_twice]
    rcases suffix_of_suffix_append hmark (List.suffix_append _ _) h with rfl | hrest
    · simp [collapse]
    · exact (ih hrest).trans (List.suffix_append _ _)
  | kept c rest hno ih =>
    rcases List.suffix_cons_iff.mp h with heq | hrest
    · rw [← heq, collapse_unit mark tail]
    · rw [collapse_cons hno]
      exact (ih hrest).trans (List.suffix_cons c _)

/-- Where two units stand in front of two more, they do so in the text before those. -/
theorem twice_prefix_of_append_twice (hmark : mark ∉ tail)
    (h : mark :: tail ++ mark :: tail <+: c :: (text ++ (mark :: tail ++ mark :: tail))) :
    c :: text = mark :: tail ∨ mark :: tail ++ mark :: tail <+: c :: text := by
  obtain ⟨behind, hbehind⟩ : mark :: tail <+: c :: text :=
    prefix_of_prefix_append_mark hmark (List.cons_ne_nil c text) ((List.prefix_append _ _).trans h)
  rw [← List.cons_append, ← hbehind, List.append_assoc, List.prefix_append_right_inj] at h
  rw [← hbehind]
  cases behind with
  | nil => exact .inl (List.append_nil _)
  | cons d behind =>
    have hsecond := prefix_of_prefix_append_mark hmark (List.cons_ne_nil d behind) h
    exact .inr ((List.prefix_append_right_inj _).mpr hsecond)

theorem collapse_append_twice (hmark : mark ∉ tail) (h : ¬ mark :: tail ++ mark :: tail <:+: text) :
    collapse (mark :: tail) (text ++ (mark :: tail ++ mark :: tail)) = text ++ mark :: tail := by
  induction text with
  | nil => simpa [collapse] using collapse_twice mark tail []
  | cons c text ih =>
    by_cases hfront : mark :: tail ++ mark :: tail <+: c :: (text ++ (mark :: tail ++ mark :: tail))
    · rcases twice_prefix_of_append_twice hmark hfront with hunit | htwice
      · rw [hunit, ← List.append_assoc, collapse_twice, collapse_unit]
      · exact absurd htwice.isInfix h
    · rw [List.cons_append, collapse_cons hfront, ih fun hinfix => h (List.infix_cons hinfix),
        List.cons_append]

/-- Two units in a row in front of two more are made one as well. -/
theorem length_collapse_append_twice (hmark : mark ∉ tail)
    (h : mark :: tail ++ mark :: tail <:+: text) :
    (collapse (mark :: tail) (text ++ (mark :: tail ++ mark :: tail))).length <
    (text ++ mark :: tail).length := by
  induction text using occurrence_induction (twice_ne_nil mark tail) with
  | nil => simp at h
  | found rest _ =>
    have hlength := length_replaceAll_add_le (mark :: tail) (twice_ne_nil mark tail) (by simp)
      (List.suffix_append rest _).isInfix
    rw [List.append_assoc, collapse_twice, collapse]
    simp only [List.length_append, List.length_cons] at hlength ⊢
    omega
  | kept c rest hno ih =>
    have hrest := (List.infix_cons_iff.mp h).resolve_left hno
    have hno' :
        ¬ mark :: tail ++ mark :: tail <+: c :: (rest ++ (mark :: tail ++ mark :: tail)) := by
      intro hfront
      rcases twice_prefix_of_append_twice hmark hfront with hunit | htwice
      · have hlength := h.length_le
        simp [hunit] at hlength
      · exact hno htwice
    rw [List.cons_append, collapse_cons hno', List.cons_append]
    exact Nat.succ_lt_succ (ih hrest)

/-- One more unit behind a last one is dropped, exactly if there are no two in a row in front of
them. -/
theorem collapse_append_twice_iff (hmark : mark ∉ tail) :
    collapse (mark :: tail) (text ++ (mark :: tail ++ mark :: tail)) = text ++ mark :: tail ↔
      ¬ mark :: tail ++ mark :: tail <:+: text := by
  refine ⟨fun heq h => ?_, collapse_append_twice hmark⟩
  have hlength := length_collapse_append_twice hmark h
  rw [heq] at hlength
  exact hlength.false

end ExtractionBench.Text
