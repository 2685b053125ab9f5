import Mathlib.Tactic
import ExtractionBench.Proofs.Text.Pieces
import ExtractionBench.Text.Replace

/-!
# Replaced text

A text is gone through from left to right: where the pattern stands at the front it is replaced and
passed over, and where it does not one character is kept. What holds of replaced text is proved
along these steps. A text changes exactly if the pattern occurs in it, and a character that the
pattern does not have stays where it is, between what becomes of the text before it and of the text
behind it.
-/

namespace ExtractionBench.Text

variable {pattern replacement : List Char} {c d : Char} {rest text x y : List Char}

/-! ## Step by step -/

theorem replaceFrom_eq (pattern replacement : List Char) (skip : Nat) (text : List Char) :
    replaceFrom pattern replacement skip text =
      replaceAll pattern replacement (text.drop skip) := by
  induction text generalizing skip with
  | nil => simp [replaceAll, replaceFrom]
  | cons c rest ih =>
    cases skip with
    | zero => rfl
    | succ skip => rw [replaceFrom, ih, List.drop_succ_cons]

@[simp] theorem replaceAll_nil : replaceAll pattern replacement [] = [] := by
  simp [replaceAll, replaceFrom]

theorem replaceAll_cons (h : ¬ pattern <+: c :: rest) :
    replaceAll pattern replacement (c :: rest) = c :: replaceAll pattern replacement rest := by
  rw [replaceAll, replaceFrom, if_neg (mt List.isPrefixOf_iff_prefix.mp h)]
  rfl

theorem replaceAll_append (hne : pattern ≠ []) (rest : List Char) :
    replaceAll pattern replacement (pattern ++ rest) =
      replacement ++ replaceAll pattern replacement rest := by
  obtain ⟨c, tail, rfl⟩ := List.exists_cons_of_ne_nil hne
  have hprefix : (c :: tail).isPrefixOf (c :: (tail ++ rest)) = true :=
    List.isPrefixOf_iff_prefix.mpr (List.prefix_append _ rest)
  rw [replaceAll, List.cons_append, replaceFrom, if_pos hprefix, replaceFrom_eq, List.length_cons,
    Nat.add_sub_cancel, List.drop_left]

/-- A text is empty, or it starts with the pattern, or with a character that is kept. -/
@[elab_as_elim]
theorem occurrence_induction {motive : List Char → Prop} (hne : pattern ≠ []) (nil : motive [])
    (found : ∀ rest, motive rest → motive (pattern ++ rest))
    (kept : ∀ c rest, ¬ pattern <+: c :: rest → motive rest → motive (c :: rest))
    (text : List Char) :
    motive text := by
  induction hlength : text.length using Nat.strong_induction_on generalizing text with
  | h n ih =>
    subst hlength
    cases text with
    | nil => exact nil
    | cons c rest =>
      by_cases h : pattern <+: c :: rest
      · obtain ⟨behind, hbehind⟩ := h
        have hpos := List.length_pos_iff.mpr hne
        rw [← hbehind] at ih ⊢
        exact found behind (ih behind.length (by rw [List.length_append]; omega) behind rfl)
      · exact kept c rest h (ih rest.length (by simp) rest rfl)

/-! ## What changes -/

/-- A text without occurrences is kept. -/
theorem replaceAll_eq_self (hne : pattern ≠ []) (h : ¬ pattern <:+: text) :
    replaceAll pattern replacement text = text := by
  induction text using occurrence_induction hne with
  | nil => exact replaceAll_nil
  | found rest _ => exact absurd (List.prefix_append pattern rest).isInfix h
  | kept c rest hno ih => rw [replaceAll_cons hno, ih fun hrest => h (List.infix_cons hrest)]

/-- A replacement that is not longer makes no text longer. -/
theorem length_replaceAll_le (replacement : List Char) (hne : pattern ≠ [])
    (hlength : replacement.length ≤ pattern.length) (text : List Char) :
    (replaceAll pattern replacement text).length ≤ text.length := by
  induction text using occurrence_induction hne with
  | nil => simp
  | found rest ih =>
    rw [replaceAll_append hne, List.length_append, List.length_append]
    omega
  | kept c rest hno ih =>
    rw [replaceAll_cons hno]
    exact Nat.succ_le_succ ih

/-- An occurrence makes a text shorter by what the pattern is longer than the replacement. -/
theorem length_replaceAll_add_le (replacement : List Char) (hne : pattern ≠ [])
    (hlength : replacement.length ≤ pattern.length) (h : pattern <:+: text) :
    (replaceAll pattern replacement text).length + pattern.length ≤
      text.length + replacement.length := by
  induction text using occurrence_induction hne with
  | nil => exact absurd (List.infix_nil.mp h) hne
  | found rest _ =>
    have hle := length_replaceAll_le replacement hne hlength rest
    rw [replaceAll_append hne, List.length_append, List.length_append]
    omega
  | kept c rest hno ih =>
    have hrest := ih ((List.infix_cons_iff.mp h).resolve_left hno)
    rw [replaceAll_cons hno, List.length_cons, List.length_cons]
    omega

/-! ## Separators -/

theorem prefix_of_prefix_append_cons (hd : d ∉ pattern) (h : pattern <+: x ++ d :: y) :
    pattern <+: x := by
  rcases List.prefix_or_prefix_of_prefix h (List.prefix_append x (d :: y)) with hx | ⟨behind, rfl⟩
  · exact hx
  · rw [List.prefix_append_right_inj] at h
    cases behind with
    | nil => rw [List.append_nil]
    | cons c behind =>
      rw [List.cons_prefix_cons] at h
      simp [h.1] at hd

/-- Texts on both sides of a character that is not in the pattern are replaced each on its own. -/
theorem replaceAll_append_cons (hne : pattern ≠ []) (hd : d ∉ pattern) (x y : List Char) :
    replaceAll pattern replacement (x ++ d :: y) =
      replaceAll pattern replacement x ++ d :: replaceAll pattern replacement y := by
  induction x using occurrence_induction hne with
  | nil =>
    refine replaceAll_cons fun h => hne ?_
    exact List.prefix_nil.mp (prefix_of_prefix_append_cons (x := []) hd h)
  | found rest ih =>
    rw [List.append_assoc, replaceAll_append hne, replaceAll_append hne, ih, List.append_assoc]
  | kept c rest hno ih =>
    have hno' : ¬ pattern <+: c :: (rest ++ d :: y) :=
      fun h => hno (prefix_of_prefix_append_cons hd h)
    rw [List.cons_append, replaceAll_cons hno', replaceAll_cons hno, ih, List.cons_append]

/-- No new characters appear but those of the replacement. -/
theorem not_mem_replaceAll (hne : pattern ≠ []) (hd : d ∉ replacement) (h : d ∉ text) :
    d ∉ replaceAll pattern replacement text := by
  induction text using occurrence_induction hne with
  | nil => simp
  | found rest ih =>
    rw [replaceAll_append hne, List.mem_append]
    exact not_or.mpr ⟨hd, ih fun hrest => h (List.mem_append_right pattern hrest)⟩
  | kept c rest hno ih =>
    rw [replaceAll_cons hno, List.mem_cons]
    rw [List.mem_cons] at h
    exact not_or.mpr ⟨fun hc => h (.inl hc), ih fun hrest => h (.inr hrest)⟩

/-- A text between separators is replaced piece by piece. -/
theorem splitOn_replaceAll (hne : pattern ≠ []) (hpattern : d ∉ pattern)
    (hreplacement : d ∉ replacement) (text : List Char) :
    (replaceAll pattern replacement text).splitOn d =
    (text.splitOn d).map (replaceAll pattern replacement) := by
  induction text using separator_induction d with
  | whole text hmem =>
    rw [List.splitOn_eq_singleton hmem,
      List.splitOn_eq_singleton (not_mem_replaceAll hne hreplacement hmem), List.map_singleton]
  | parts x y hx hy =>
    rw [replaceAll_append_cons hne hpattern, splitOn_append_cons, splitOn_append_cons, hx, hy,
      List.map_append]

/-! ## Patterns with a mark

A pattern whose first character occurs nowhere else in it does not overlap itself, so where it
starts is not in doubt when texts are put together. -/

section Mark

variable {mark : Char} {tail : List Char}

theorem prefix_of_prefix_append_mark (hmark : mark ∉ tail) (hx : x ≠ [])
    (h : mark :: tail <+: x ++ mark :: y) :
    mark :: tail <+: x := by
  obtain ⟨c, x, rfl⟩ := List.exists_cons_of_ne_nil hx
  rw [List.cons_append, List.cons_prefix_cons] at h
  exact List.cons_prefix_cons.mpr ⟨h.1, prefix_of_prefix_append_cons hmark h.2⟩

/-- A pattern that starts with a mark, and has no other one, occurs on one side of a mark. -/
theorem infix_append_mark_iff (hmark : mark ∉ tail) :
    mark :: tail <:+: x ++ mark :: y ↔ mark :: tail <:+: x ∨ mark :: tail <:+: mark :: y := by
  induction x with
  | nil => simp
  | cons c x ih =>
    have hfront : mark :: tail <+: c :: (x ++ mark :: y) ↔ mark :: tail <+: c :: x :=
      ⟨prefix_of_prefix_append_mark hmark (List.cons_ne_nil c x),
        (·.trans (List.prefix_append (c :: x) _))⟩
    rw [List.cons_append, List.infix_cons_iff, List.infix_cons_iff, ih, hfront, or_assoc]

/-- Of two occurrences at the end of a text, one in front of the other, the later one lies behind
the earlier. -/
theorem suffix_of_suffix_append (hmark : mark ∉ tail) (hx : mark :: tail <:+ x)
    (h : mark :: tail <:+ x ++ y) :
    y = [] ∨ mark :: tail <:+ y := by
  rcases List.suffix_or_suffix_of_suffix h (List.suffix_append x y) with hy | ⟨front, hfront⟩
  · exact .inr hy
  · cases front with
    | nil => exact .inr (hfront ▸ List.suffix_rfl)
    | cons c front =>
      obtain ⟨rfl, rfl⟩ : c = mark ∧ front ++ y = tail := by simpa using hfront
      -- What stands in front of `y` ends `x` as well, so its mark is the one that `x` ends with.
      have hshort : c :: front <:+ c :: (front ++ y) := by
        rw [← List.cons_append, List.suffix_append_inj_of_length_eq rfl] at h
        exact List.suffix_of_suffix_length_le h.1 hx (by simp)
      rcases List.suffix_cons_iff.mp hshort with heq | hinner
      · left
        simpa using heq
      · exact absurd (hinner.subset List.mem_cons_self) hmark

/-- An occurrence cannot lie on both sides of a mark, so texts are replaced apart. -/
theorem replaceAll_append_mark (hmark : mark ∉ tail) (x y : List Char) :
    replaceAll (mark :: tail) replacement (x ++ mark :: y) =
      replaceAll (mark :: tail) replacement x ++
        replaceAll (mark :: tail) replacement (mark :: y) := by
  have hne := List.cons_ne_nil mark tail
  induction x using occurrence_induction hne with
  | nil => rw [replaceAll_nil, List.nil_append, List.nil_append]
  | found rest ih =>
    rw [List.append_assoc, replaceAll_append hne, replaceAll_append hne, ih, List.append_assoc]
  | kept c rest hno ih =>
    have hno' : ¬ mark :: tail <+: c :: (rest ++ mark :: y) :=
      fun h => hno (prefix_of_prefix_append_mark hmark (List.cons_ne_nil c rest) h)
    rw [List.cons_append, replaceAll_cons hno', replaceAll_cons hno, ih, List.cons_append]

/-- What a text starts with is the same after replacing, if it is up to the first mark. -/
theorem prefix_replaceAll_iff {v : List Char} (hv : mark ∉ v) (w : List Char)
    (hw : ∀ text, w <+: replaceAll (mark :: tail) (mark :: x) text ↔ w <+: text)
    (text : List Char) :
    v ++ w <+: replaceAll (mark :: tail) (mark :: x) text ↔ v ++ w <+: text := by
  induction v generalizing text with
  | nil => exact hw text
  | cons c v ih =>
    obtain ⟨hc, hv⟩ := List.ne_and_not_mem_of_not_mem_cons hv
    induction text using occurrence_induction (List.cons_ne_nil mark tail) with
    | nil => simp
    | found rest _ =>
      rw [replaceAll_append (List.cons_ne_nil mark tail)]
      simp [hc.symm]
    | kept d rest hno _ =>
      rw [replaceAll_cons hno, List.cons_append, List.cons_prefix_cons, List.cons_prefix_cons,
        ih hv]

end Mark

/-! ## Dropped text -/

/-- A pattern some times in a row. -/
def times (n : Nat) (pattern : List Char) : List Char := (List.replicate n pattern).flatten

theorem times_zero (pattern : List Char) : times 0 pattern = [] := rfl

theorem times_succ (n : Nat) (pattern : List Char) :
    times (n + 1) pattern = pattern ++ times n pattern := by
  rw [times, List.replicate_succ, List.flatten_cons, times]

/-- Repetitions of a pattern at the front are all dropped. -/
theorem drop_times (hne : pattern ≠ []) (n : Nat) (rest : List Char) :
    replaceAll pattern [] (times n pattern ++ rest) = replaceAll pattern [] rest := by
  induction n with
  | zero => rw [times_zero, List.nil_append]
  | succ n ih => rw [times_succ, List.append_assoc, replaceAll_append hne, ih, List.nil_append]

/-- The first character that is left stands behind dropped patterns. -/
theorem exists_of_drop_eq_cons (hne : pattern ≠ []) (h : replaceAll pattern [] text = c :: y) :
    ∃ n rest, text = times n pattern ++ c :: rest ∧ ¬ pattern <+: c :: rest ∧
      replaceAll pattern [] rest = y := by
  induction text using occurrence_induction hne with
  | nil => simp at h
  | found rest ih =>
    rw [replaceAll_append hne, List.nil_append] at h
    obtain ⟨n, behind, rfl, hno, hy⟩ := ih h
    exact ⟨n + 1, behind, by rw [times_succ, List.append_assoc], hno, hy⟩
  | kept d rest hno _ =>
    rw [replaceAll_cons hno, List.cons.injEq] at h
    obtain ⟨rfl, hy⟩ := h
    exact ⟨0, rest, by rw [times_zero, List.nil_append], hno, hy⟩

theorem exists_of_drop_eq_append (hne : pattern ≠ []) (h : replaceAll pattern [] text = x ++ y) :
    ∃ front behind, text = front ++ behind ∧ replaceAll pattern [] behind = y := by
  induction x generalizing text with
  | nil => exact ⟨[], text, rfl, h⟩
  | cons c x ih =>
    obtain ⟨n, rest, rfl, -, hrest⟩ := exists_of_drop_eq_cons hne h
    obtain ⟨front, behind, rfl, hbehind⟩ := ih hrest
    exact ⟨times n pattern ++ c :: front, behind, by simp, hbehind⟩

end ExtractionBench.Text
