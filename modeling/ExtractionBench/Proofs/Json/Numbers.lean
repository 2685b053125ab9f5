import Mathlib.Tactic
import ExtractionBench.Json.Printer
import ExtractionBench.Json.Reader
import ExtractionBench.Proofs.Json.Extension

/-!
# Numbers among other text

A number ends where no further byte of a number stands. So a number that is read from a text is read
alike where the text goes on behind it, and one that is read from a text of its own where this text
is followed by anything else.
-/

namespace ExtractionBench.Json

/-- What the reader takes does not depend on what follows, if that cannot be part of a number. -/
def Local {α : Type} (read : Reader α) : Prop :=
  ∀ (input : List UInt8) {rest : List UInt8} {x : α} {after : List UInt8}, EndsNumber rest →
    read input = .ok (x, after) → read (input ++ rest) = .ok (x, after ++ rest)

/-- A reader that reads on in the same way in longer texts takes nothing of what follows a
number. -/
theorem Extends.local {α : Type} {read : Reader α} (h : Extends [] read read) : Local read := by
  intro input rest x after hrest hread
  exact (h.take hread).2 rest (hrest.seam _)

variable {rest more : List UInt8} {negative : Bool} {significand : Nat} {exponent : Int}

/-! ## Runs of digits -/

/-- A text that is continued starts with a digit as before, unless it was empty. -/
theorem startsWithDigit_append {input : List UInt8}
    (h : input = [] → startsWithDigit more = false) :
    startsWithDigit (input ++ more) = startsWithDigit input := by
  cases input with
  | cons b input => rfl
  | nil => exact h rfl

/-- The digits at the start of a text are the same if no digit follows where they reach its end. -/
theorem takeWhile_isDigit_append {input : List UInt8}
    (h : input.dropWhile isDigit = [] → startsWithDigit more = false) :
    (input ++ more).takeWhile isDigit = input.takeWhile isDigit := by
  induction input with
  | cons b input ih =>
    by_cases hb : isDigit b
    · rw [List.dropWhile_cons_of_pos hb] at h
      simp [hb, ih h]
    · simp [hb]
  | nil =>
    cases more with
    | nil => rfl
    | cons b more =>
      have hb : isDigit b = false := h rfl
      simp [hb]

/-- What is left behind the digits goes on with what is put behind the text. -/
theorem dropWhile_isDigit_append {input : List UInt8}
    (h : input.dropWhile isDigit = [] → startsWithDigit more = false) :
    (input ++ more).dropWhile isDigit = input.dropWhile isDigit ++ more := by
  induction input with
  | cons b input ih =>
    by_cases hb : isDigit b
    · rw [List.dropWhile_cons_of_pos hb] at h
      simp [hb, ih h]
    · simp [hb]
  | nil =>
    cases more with
    | nil => rfl
    | cons b more =>
      have hb : isDigit b = false := h rfl
      simp [hb]

/-- The digits that fit below a bound are counted as before if no digit follows where they reach the
end. -/
theorem accumulate_append {bound n : Nat} {input : List UInt8}
    (h : (accumulate bound n input).2.2 = [] → startsWithDigit more = false) :
    accumulate bound n (input ++ more)
      = ((accumulate bound n input).1, (accumulate bound n input).2.1,
        (accumulate bound n input).2.2 ++ more) := by
  induction input generalizing n with
  | cons b input ih =>
    simp only [List.cons_append, accumulate] at h ⊢
    split
    · next hb =>
      rw [if_pos hb] at h
      rw [ih h]
    · rfl
  | nil =>
    cases more with
    | nil => rfl
    | cons b more =>
      have hb : isDigit b = false := h rfl
      simp [accumulate, hb]

/-- What is left behind the digits that fit is a rest of the text. -/
theorem accumulate_suffix (bound n : Nat) (input : List UInt8) :
    (accumulate bound n input).2.2 <:+ input := by
  induction input generalizing n with
  | nil => exact List.suffix_rfl
  | cons b input ih =>
    simp only [accumulate]
    split
    · exact (ih _).trans (List.suffix_cons b input)
    · exact List.suffix_rfl

/-! ## The parts of a number -/

/-- A number from its digits and exponent is made up without looking at the text. -/
theorem realOf_extends :
    Extends [] (realOf negative significand exponent) (realOf negative significand exponent) := by
  constructor
  intro input x after h
  unfold realOf at h ⊢
  split at h
  · cases h
    exact ⟨List.suffix_rfl, fun more _ => rfl⟩
  · cases h

/-- The digits of an exponent, behind its sign. -/
def readPower (negative : Bool) (significand : Nat) (start : Int) (down : Bool) : Reader Number
  | [] => stopAfter .endInValue []
  | b :: rest =>
    if isDigit b then
      let (value, _, after) := accumulate exponentBound (digitValue b) rest
      if startsWithDigit after then
        if significand ≠ 0 && !down then stopAfter .numberOutOfRange (after.drop 1)
        else .ok (.real (if negative then -.zero else .zero), after.dropWhile isDigit)
      else realOf negative significand (if down then start - value else start + value) after
    else stopAfter .badNumber rest

/-- The sign of an exponent decides on its direction, and is no part of its digits. -/
theorem readExponent_cons (b : UInt8) (input : List UInt8) :
    readExponent negative significand exponent (b :: input)
      = if b = byte '-' then readPower negative significand exponent true input
        else if b = byte '+' then readPower negative significand exponent false input
        else readPower negative significand exponent false (b :: input) := by
  unfold readExponent
  by_cases hminus : b = byte '-'
  · simp only [if_pos hminus]
    rfl
  · by_cases hplus : b = byte '+'
    · simp only [if_neg hminus, if_pos hplus]
      rfl
    · simp only [if_neg hminus, if_neg hplus]
      rfl

/-- The digits of an exponent are read as before in every text that goes on with no further
digit. -/
theorem readPower_extends {down : Bool} :
    Extends [] (readPower negative significand exponent down)
      (readPower negative significand exponent down) := by
  constructor
  intro input x after h
  cases input with
  | nil => cases h
  | cons b input =>
    have hdigits : (accumulate exponentBound (digitValue b) input).2.2 <:+ b :: input :=
      (accumulate_suffix _ _ input).trans (List.suffix_cons b input)
    simp only [readPower] at h
    by_cases hdigit : isDigit b
    · rw [if_pos hdigit] at h
      by_cases hover : startsWithDigit (accumulate exponentBound (digitValue b) input).2.2
      · rw [if_pos hover] at h
        split at h
        · cases h
        · next hrange =>
          cases h
          have hdrop :=
            List.dropWhile_suffix isDigit (l := (accumulate exponentBound (digitValue b) input).2.2)
          refine ⟨hdrop.trans hdigits, ?_⟩
          intro more hseam
          have hrest := (hseam.of_suffix hdrop).startsWithDigit
          simp only [List.cons_append, readPower, if_pos hdigit, accumulate_append hrest,
            startsWithDigit_append hrest, if_pos hover, if_neg hrange,
            dropWhile_isDigit_append hseam.startsWithDigit]
      · rw [if_neg hover] at h
        obtain ⟨hafter, hmore⟩ := realOf_extends.take h
        refine ⟨hafter.trans hdigits, ?_⟩
        intro more hseam
        have hrest := (hseam.of_suffix hafter).startsWithDigit
        simp only [List.cons_append, readPower, if_pos hdigit, accumulate_append hrest,
          startsWithDigit_append hrest, if_neg hover]
        exact hmore more hseam
    · rw [if_neg hdigit] at h
      cases h

/-- So is an exponent with its sign. -/
theorem readExponent_extends :
    Extends [] (readExponent negative significand exponent)
      (readExponent negative significand exponent) := by
  constructor
  intro input x after h
  cases input with
  | nil => cases h
  | cons b input =>
    simp only [List.cons_append, readExponent_cons] at h ⊢
    by_cases hminus : b = byte '-'
    · simp only [if_pos hminus] at h ⊢
      obtain ⟨hafter, hmore⟩ := readPower_extends.take h
      exact ⟨hafter.trans (List.suffix_cons b input), hmore⟩
    · simp only [if_neg hminus] at h ⊢
      by_cases hplus : b = byte '+'
      · simp only [if_pos hplus] at h ⊢
        obtain ⟨hafter, hmore⟩ := readPower_extends.take h
        exact ⟨hafter.trans (List.suffix_cons b input), hmore⟩
      · simp only [if_neg hplus] at h ⊢
        exact readPower_extends.take h

theorem EndsNumber.not_exponent {b : UInt8} (h : EndsNumber (b :: rest)) :
    ¬ (b = byte 'e' || b = byte 'E') = true := by
  intro hb
  rw [Bool.or_eq_true, decide_eq_true_iff, decide_eq_true_iff] at hb
  exact hb.elim h.2.2.1 h.2.2.2

/-- What follows the digits of a number is read on only if it is an exponent. -/
theorem readScale_of_endsNumber (h : EndsNumber rest) :
    readScale negative significand exponent rest = realOf negative significand exponent rest := by
  cases rest with
  | nil => rfl
  | cons b rest => rw [readScale, if_neg h.not_exponent]

/-- What follows the digits of a number, an exponent or nothing, is read in the same way in longer
texts. -/
theorem readScale_extends :
    Extends [] (readScale negative significand exponent)
      (readScale negative significand exponent) := by
  constructor
  intro input x after h
  cases input with
  | cons b input =>
    rw [readScale] at h
    by_cases he : (b = byte 'e' || b = byte 'E') = true
    · rw [if_pos he] at h
      obtain ⟨hafter, hmore⟩ := readExponent_extends.take h
      refine ⟨hafter.trans (List.suffix_cons b input), ?_⟩
      intro more hseam
      rw [List.cons_append, readScale, if_pos he]
      exact hmore more hseam
    · rw [if_neg he] at h
      obtain ⟨hafter, hmore⟩ := realOf_extends.take h
      refine ⟨hafter, ?_⟩
      intro more hseam
      rw [List.cons_append, readScale, if_neg he]
      exact hmore more hseam
  | nil =>
    obtain ⟨hafter, hmore⟩ := realOf_extends.take h
    refine ⟨hafter, ?_⟩
    intro more hseam
    rw [List.nil_append, readScale_of_endsNumber (hseam (List.suffix_nil.mp hafter))]
    exact hmore more hseam

/-- The digits behind a point, and an exponent behind them, are read in the same way in longer
texts. -/
theorem readFraction_extends :
    Extends [] (readFraction negative significand exponent)
      (readFraction negative significand exponent) := by
  constructor
  intro input x after h
  have hdigits := accumulate_suffix significandBound significand input
  simp only [readFraction] at h ⊢
  by_cases hfull : startsWithDigit (accumulate significandBound significand input).2.2
  · rw [if_pos hfull] at h
    have hdrop :=
      List.dropWhile_suffix isDigit (l := (accumulate significandBound significand input).2.2)
    obtain ⟨hafter, hmore⟩ := readScale_extends.take h
    refine ⟨hafter.trans (hdrop.trans hdigits), ?_⟩
    intro more hseam
    have hrest := hseam.of_suffix hafter
    have hrest' := (hrest.of_suffix hdrop).startsWithDigit
    simp only [accumulate_append hrest', startsWithDigit_append hrest', if_pos hfull,
      dropWhile_isDigit_append hrest.startsWithDigit]
    exact hmore more hseam
  · rw [if_neg hfull] at h
    split at h
    · cases h
    · next hcount =>
      obtain ⟨hafter, hmore⟩ := readScale_extends.take h
      refine ⟨hafter.trans hdigits, ?_⟩
      intro more hseam
      have hrest := (hseam.of_suffix hafter).startsWithDigit
      simp only [accumulate_append hrest, startsWithDigit_append hrest, if_neg hfull, if_neg hcount]
      exact hmore more hseam

/-- What follows the digits before the point. -/
def readBehind (negative : Bool) (n : Nat) (beyond : List UInt8) : Reader Number
  | c :: more =>
    if c = byte '.' then readFraction negative n beyond.length more
    else if c = byte 'e' || c = byte 'E' then readExponent negative n beyond.length more
    else if beyond.isEmpty then .ok (wholeNumber negative n, c :: more)
    else realOf negative n beyond.length (c :: more)
  | [] => if beyond.isEmpty then .ok (wholeNumber negative n, [])
    else realOf negative n beyond.length []

/-- A number is read by its first digit and by what follows the digits that fit. -/
theorem readNumber_cons (b : UInt8) (input : List UInt8) :
    readNumber negative (b :: input)
      = if !isDigit b then stopAfter .badNumber input
        else if b = byte '0' && startsWithDigit input then stopAt .badNumber input
        else
          let digits := accumulate significandBound (digitValue b) input
          readBehind negative digits.1 (digits.2.2.takeWhile isDigit)
            (digits.2.2.dropWhile isDigit) := rfl

/-- The number is whole if nothing of it stands behind the digits that are kept. -/
def wholeOrReal (negative : Bool) (n : Nat) (beyond : List UInt8) : Reader Number := fun rest =>
  if beyond.isEmpty then .ok (wholeNumber negative n, rest)
    else realOf negative n beyond.length rest

/-- A number that ends behind the digits before the point is made up from these. -/
theorem readBehind_of_endsNumber {n : Nat} {beyond : List UInt8} (h : EndsNumber rest) :
    readBehind negative n beyond rest = wholeOrReal negative n beyond rest := by
  cases rest with
  | nil => rfl
  | cons c rest =>
    rw [readBehind, if_neg h.2.1, if_neg h.not_exponent]
    rfl

/-- A number without a point and an exponent is made up without looking at the text. -/
theorem wholeOrReal_extends {n : Nat} {beyond : List UInt8} :
    Extends [] (wholeOrReal negative n beyond) (wholeOrReal negative n beyond) := by
  constructor
  intro input x after h
  unfold wholeOrReal at h ⊢
  split at h
  · next hempty =>
    cases h
    refine ⟨List.suffix_rfl, ?_⟩
    intro more _
    rw [if_pos hempty]
  · next hempty =>
    obtain ⟨hafter, hmore⟩ := realOf_extends.take h
    refine ⟨hafter, ?_⟩
    intro more hseam
    rw [if_neg hempty]
    exact hmore more hseam

/-- A fraction or an exponent is read as before in every text that goes on behind the number. -/
theorem readBehind_extends {n : Nat} {beyond : List UInt8} :
    Extends [] (readBehind negative n beyond) (readBehind negative n beyond) := by
  constructor
  intro input x after h
  cases input with
  | cons c input =>
    by_cases hpoint : c = byte '.'
    · simp only [List.cons_append, readBehind, if_pos hpoint] at h ⊢
      obtain ⟨hafter, hmore⟩ := readFraction_extends.take h
      exact ⟨hafter.trans (List.suffix_cons c input), hmore⟩
    · by_cases he : (c = byte 'e' || c = byte 'E') = true
      · simp only [List.cons_append, readBehind, if_neg hpoint, if_pos he] at h ⊢
        obtain ⟨hafter, hmore⟩ := readExponent_extends.take h
        exact ⟨hafter.trans (List.suffix_cons c input), hmore⟩
      · simp only [List.cons_append, readBehind, if_neg hpoint, if_neg he] at h ⊢
        exact wholeOrReal_extends.take h
  | nil =>
    obtain ⟨hafter, hmore⟩ := wholeOrReal_extends.take h
    refine ⟨hafter, ?_⟩
    intro more hseam
    rw [List.nil_append, readBehind_of_endsNumber (hseam (List.suffix_nil.mp hafter))]
    exact hmore more hseam

/-- A number takes its first digit. -/
theorem readNumber_cons_extends (b : UInt8) :
    Extends [] (fun input => readNumber negative (b :: input))
      (fun input => readNumber negative (b :: input)) := by
  constructor
  intro input x after h
  simp only [readNumber_cons] at h ⊢
  by_cases hdigit : (!isDigit b) = true
  · rw [if_pos hdigit] at h
    cases h
  · rw [if_neg hdigit] at h
    split at h
    · cases h
    · next hzero =>
      have hdigits := accumulate_suffix significandBound (digitValue b) input
      have hdrop :=
        List.dropWhile_suffix isDigit (l := (accumulate significandBound (digitValue b) input).2.2)
      obtain ⟨hafter, hmore⟩ := readBehind_extends.take h
      refine ⟨hafter.trans (hdrop.trans hdigits), ?_⟩
      intro more hseam
      have hrest := hseam.of_suffix hafter
      have hrest' := hrest.of_suffix hdrop
      rw [if_neg hdigit, startsWithDigit_append (hrest'.of_suffix hdigits).startsWithDigit,
        if_neg hzero, accumulate_append hrest'.startsWithDigit]
      dsimp only
      rw [takeWhile_isDigit_append hrest.startsWithDigit,
        dropWhile_isDigit_append hrest.startsWithDigit]
      exact hmore more hseam

/-- A number is read as before in every text that goes on behind it. -/
theorem readNumber_extends : Extends [] (readNumber negative) (readNumber negative) := by
  constructor
  intro input x after h
  cases input with
  | nil => cases h
  | cons b input =>
    obtain ⟨hafter, hmore⟩ := (readNumber_cons_extends b).take h
    exact ⟨hafter.trans (List.suffix_cons b input), hmore⟩

/-- Nothing behind a number changes it, if it cannot be a part of the number. -/
theorem readNumber_local : Local (readNumber negative) := readNumber_extends.local

/-! ## Values that are numbers -/

/-- Only white space may follow a whole text. -/
theorem readEnd_eq_ok_iff {input : List UInt8} :
    (∃ r, readEnd input = .ok r) ↔ skipSpace input = [] := by
  unfold readEnd
  split
  · next h => exact iff_of_true ⟨_, rfl⟩ h
  · next h =>
    rw [h]
    exact iff_of_false (fun ⟨r, hr⟩ => nomatch hr) (List.cons_ne_nil _ _)

/-- A text is a value if one is read from it with nothing but white space left. -/
theorem read?_eq_ok_iff {text : String} {v : Json} :
    read? text = .ok v ↔
      ∃ after, readValue (text.toUTF8.toList.length + 1) depthLimit text.toUTF8.toList =
        .ok (v, after)
        ∧ skipSpace after = [] := by
  have hmap : ∀ (x : Except Stop Json) (f : Stop → Failure), x.mapError f = .ok v ↔ x = .ok v := by
    rintro (e | w) f <;> simp [Except.mapError]
  unfold read?
  dsimp only
  rw [hmap, bind_eq_ok_iff]
  constructor
  · rintro ⟨⟨w, after⟩, hvalue, h⟩
    obtain ⟨r, hend, hw⟩ := bind_eq_ok_iff.mp h
    cases hw
    exact ⟨after, hvalue, readEnd_eq_ok_iff.mp ⟨r, hend⟩⟩
  · rintro ⟨after, hvalue, hskip⟩
    obtain ⟨r, hend⟩ := readEnd_eq_ok_iff.mpr hskip
    exact ⟨(v, after), hvalue, bind_eq_ok_iff.mpr ⟨r, hend, rfl⟩⟩

/-- What stands between brackets is no number. -/
theorem not_number_of_readNested {fuel : Nat} {value : Reader Json} {opening : UInt8}
    {input after : List UInt8} {n : Number} :
    readNested fuel value opening input ≠ .ok (.number n, after) := by
  intro h
  unfold readNested at h
  split at h
  · obtain ⟨r, -, h⟩ := bind_eq_ok_iff.mp h
    cases h
  · obtain ⟨r, -, h⟩ := bind_eq_ok_iff.mp h
    cases h

/-- A value that is a number stays that number if something follows that is no part of it. -/
theorem readValueWith_number {nested nested' : UInt8 → Reader Json} {input after : List UInt8}
    {n : Number} (hnested : ∀ b input, nested b input ≠ .ok (.number n, after))
    (hrest : EndsNumber rest) (h : readValueWith nested input = .ok (.number n, after)) :
    readValueWith nested' (input ++ rest) = .ok (.number n, after ++ rest) := by
  unfold readValueWith at h ⊢
  cases hskip : skipSpace input with
  | nil =>
    rw [hskip] at h
    cases h
  | cons b more =>
    rw [hskip] at h
    rw [skipSpace_append_of_cons hskip]
    dsimp only at h ⊢
    -- the words, strings and brackets come to something else than a number
    by_cases hnull : b = byte 'n'
    · rw [if_pos hnull] at h
      obtain ⟨r, -, h⟩ := map_eq_ok_iff.mp h
      cases h
    rw [if_neg hnull] at h ⊢
    by_cases htrue : b = byte 't'
    · rw [if_pos htrue] at h
      obtain ⟨r, -, h⟩ := map_eq_ok_iff.mp h
      cases h
    rw [if_neg htrue] at h ⊢
    by_cases hfalse : b = byte 'f'
    · rw [if_pos hfalse] at h
      obtain ⟨r, -, h⟩ := map_eq_ok_iff.mp h
      cases h
    rw [if_neg hfalse] at h ⊢
    by_cases hminus : b = byte '-'
    · rw [if_pos hminus] at h ⊢
      obtain ⟨r, hr, h⟩ := map_eq_ok_iff.mp h
      cases h
      rw [readNumber_local _ hrest hr]
      rfl
    rw [if_neg hminus] at h ⊢
    by_cases hdigit : isDigit b
    · rw [if_pos hdigit] at h ⊢
      obtain ⟨r, hr, h⟩ := map_eq_ok_iff.mp h
      cases h
      rw [← List.cons_append, readNumber_local _ hrest hr]
      rfl
    rw [if_neg hdigit] at h
    split at h
    · obtain ⟨r, -, h⟩ := map_eq_ok_iff.mp h
      cases h
    · split at h
      · exact absurd h (hnested b more)
      · cases h

/-- A number that has been read from a text of its own is read in every place where a value may
stand.
-/
theorem readValue_number {text : String} {n : Number} (h : read? text = .ok (.number n))
    (fuel depth : Nat) (hrest : EndsNumber rest) :
    ∃ after, readValue fuel depth (text.toUTF8.toList ++ rest) = .ok (.number n, after)
      ∧ skipSpace after = skipSpace rest := by
  obtain ⟨after, hvalue, hafter⟩ := read?_eq_ok_iff.mp h
  refine ⟨after ++ rest, ?_, skipSpace_append_of_nil hafter rest⟩
  cases depth with
  | zero => exact readValueWith_number (fun _ _ => not_number_of_readNested) hrest hvalue
  | succ depth => exact readValueWith_number (fun _ _ => not_number_of_readNested) hrest hvalue

end ExtractionBench.Json
