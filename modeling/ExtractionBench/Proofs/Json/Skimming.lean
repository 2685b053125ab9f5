import Mathlib.Tactic
import ExtractionBench.Json.Skim
import ExtractionBench.Proofs.Json.Tokens

/-!
# Skimmed values in longer texts

What is only skimmed is read over in the same way, however long the text is and however much fuel
there is: lists and objects up to their brackets, numbers as far as they can go on.
-/

namespace ExtractionBench.Json

variable {rest : List UInt8}

/-! ## Numbers -/

/-- Reads over the digits of an exponent, behind its sign. -/
def skimPower : Reader Unit
  | [] => stopAfter .badNumber []
  | b :: rest => if isDigit b then .ok ((), rest.dropWhile isDigit) else stopAfter .badNumber rest

/-- An exponent is skimmed by its digits, behind a sign if there is one. -/
theorem skimExponent_cons (b : UInt8) (input : List UInt8) :
    skimExponent (b :: input) = if b = byte '-' || b = byte '+' then skimPower input
      else skimPower (b :: input) := by
  unfold skimExponent
  dsimp only
  split_ifs
  · rfl
  · rfl

/-- The digits of an exponent are read over as before in every text that goes on with no further
digit. -/
theorem skimPower_extends : Extends [] skimPower skimPower := by
  constructor
  intro input x after h
  cases input with
  | nil => cases h
  | cons b input =>
    rw [skimPower] at h
    by_cases hdigit : isDigit b
    · rw [if_pos hdigit] at h
      cases h
      have hdrop := List.dropWhile_suffix isDigit (l := input)
      refine ⟨hdrop.trans (List.suffix_cons b input), ?_⟩
      intro more hseam
      rw [List.cons_append, skimPower, if_pos hdigit,
        dropWhile_isDigit_append hseam.startsWithDigit]
    · rw [if_neg hdigit] at h
      cases h

/-- So is an exponent with its sign. -/
theorem skimExponent_extends : Extends [] skimExponent skimExponent := by
  constructor
  intro input x after h
  cases input with
  | nil => cases h
  | cons b input =>
    simp only [List.cons_append, skimExponent_cons] at h ⊢
    by_cases hsign : (b = byte '-' || b = byte '+') = true
    · simp only [if_pos hsign] at h ⊢
      obtain ⟨hafter, hmore⟩ := skimPower_extends.take h
      exact ⟨hafter.trans (List.suffix_cons b input), hmore⟩
    · simp only [if_neg hsign] at h ⊢
      exact skimPower_extends.take h

/-- Nothing is left to skim of a number that has ended behind its digits. -/
theorem skimScale_of_endsNumber (h : EndsNumber rest) : skimScale rest = .ok ((), rest) := by
  cases rest with
  | nil => rfl
  | cons b rest => rw [skimScale, if_neg h.not_exponent]

/-- What follows the digits of a number, an exponent or nothing, is read over in the same way. -/
theorem skimScale_extends : Extends [] skimScale skimScale := by
  constructor
  intro input x after h
  cases input with
  | cons b input =>
    simp only [List.cons_append, skimScale] at h ⊢
    by_cases he : (b = byte 'e' || b = byte 'E') = true
    · simp only [if_pos he] at h ⊢
      obtain ⟨hafter, hmore⟩ := skimExponent_extends.take h
      exact ⟨hafter.trans (List.suffix_cons b input), hmore⟩
    · simp only [if_neg he] at h ⊢
      cases h
      exact ⟨List.suffix_rfl, fun more _ => rfl⟩
  | nil =>
    cases h
    refine ⟨List.suffix_rfl, ?_⟩
    intro more hseam
    exact skimScale_of_endsNumber (hseam rfl)

/-- Reads over what follows the digits before the point. -/
def skimBehind : Reader Unit
  | c :: more =>
    if c = byte '.' then
      if startsWithDigit more then skimScale (more.dropWhile isDigit) else stopAt .badNumber more
    else skimScale (c :: more)
  | [] => .ok ((), [])

/-- A number is skimmed by its first digit and by what follows the run of digits. -/
theorem skimNumber_cons (b : UInt8) (input : List UInt8) :
    skimNumber (b :: input)
      = if !isDigit b then stopAfter .badNumber input
        else if b = byte '0' && startsWithDigit input then stopAt .badNumber input
        else skimBehind (input.dropWhile isDigit) := rfl

/-- A number that ends behind the digits before the point has been skimmed. -/
theorem skimBehind_of_endsNumber (h : EndsNumber rest) : skimBehind rest = .ok ((), rest) := by
  cases rest with
  | nil => rfl
  | cons c rest => rw [skimBehind, if_neg h.2.1, skimScale_of_endsNumber h]

/-- A fraction or an exponent is read over as before in every text that goes on behind the
number. -/
theorem skimBehind_extends : Extends [] skimBehind skimBehind := by
  constructor
  intro input x after h
  cases input with
  | cons c input =>
    simp only [List.cons_append, skimBehind] at h ⊢
    by_cases hpoint : c = byte '.'
    · simp only [if_pos hpoint] at h ⊢
      by_cases hdigit : startsWithDigit input
      · rw [if_pos hdigit] at h
        have hdrop := List.dropWhile_suffix isDigit (l := input)
        obtain ⟨hafter, hmore⟩ := skimScale_extends.take h
        refine ⟨(hafter.trans hdrop).trans (List.suffix_cons c input), ?_⟩
        intro more hseam
        have hrest := hseam.of_suffix hafter
        rw [startsWithDigit_append (hrest.of_suffix hdrop).startsWithDigit, if_pos hdigit,
          dropWhile_isDigit_append hrest.startsWithDigit]
        exact hmore more hseam
      · rw [if_neg hdigit] at h
        cases h
    · simp only [if_neg hpoint] at h ⊢
      exact skimScale_extends.take h
  | nil =>
    cases h
    refine ⟨List.suffix_rfl, ?_⟩
    intro more hseam
    exact skimBehind_of_endsNumber (hseam rfl)

/-- Behind its first byte a number is read over as before in every text that goes on behind it. -/
theorem skimNumber_cons_extends (b : UInt8) :
    Extends [] (fun input => skimNumber (b :: input)) (fun input => skimNumber (b :: input)) := by
  constructor
  intro input x after h
  simp only [skimNumber_cons] at h ⊢
  by_cases hdigit : (!isDigit b) = true
  · rw [if_pos hdigit] at h
    cases h
  · rw [if_neg hdigit] at h
    by_cases hzero : (b = byte '0' && startsWithDigit input) = true
    · rw [if_pos hzero] at h
      cases h
    · rw [if_neg hzero] at h
      have hdrop := List.dropWhile_suffix isDigit (l := input)
      obtain ⟨hafter, hmore⟩ := skimBehind_extends.take h
      refine ⟨hafter.trans hdrop, ?_⟩
      intro more hseam
      have hrest := hseam.of_suffix hafter
      rw [if_neg hdigit, startsWithDigit_append (hrest.of_suffix hdrop).startsWithDigit,
        if_neg hzero, dropWhile_isDigit_append hrest.startsWithDigit]
      exact hmore more hseam

/-- A number is read over as before in every text that goes on behind it. -/
theorem skimNumber_extends : Extends [] skimNumber skimNumber := by
  constructor
  intro input x after h
  cases input with
  | nil => cases h
  | cons b input =>
    obtain ⟨hafter, hmore⟩ := (skimNumber_cons_extends b).take h
    exact ⟨hafter.trans (List.suffix_cons b input), hmore⟩

/-! ## Values -/

/-- What is skimmed behind the first byte of a value. -/
def skimFrom (nested : UInt8 → Reader Unit) (b : UInt8) : Reader Unit := fun rest =>
  if b = byte 'n' then readWord ['u', 'l', 'l'] rest
  else if b = byte 't' then readWord ['r', 'u', 'e'] rest
  else if b = byte 'f' then readWord ['a', 'l', 's', 'e'] rest
  else if b = byte '-' then skimNumber rest
  else if isDigit b then skimNumber (b :: rest)
  else if b = byte '"' then skimText rest
  else if b = byte '[' || b = byte '\x7b' then nested b rest
  else stopAt .noValue (b :: rest)

/-- A value is skimmed by its first byte that is not white space. -/
theorem skimValueWith_of_cons {nested : UInt8 → Reader Unit} {input : List UInt8} {b : UInt8}
    (h : skipSpace input = b :: rest) : skimValueWith nested input = skimFrom nested b rest := by
  rw [skimValueWith, h]
  rfl

variable {nested nested' : UInt8 → Reader Unit}

/-- Behind its first byte a value is read over as before if its items are. -/
theorem skimFrom_extends (hnested : ∀ b, Extends [] (nested b) (nested' b)) (b : UInt8) :
    Extends [] (skimFrom nested b) (skimFrom nested' b) := by
  unfold skimFrom
  split_ifs
  · exact readWord_extends _
  · exact readWord_extends _
  · exact readWord_extends _
  · exact skimNumber_extends
  · exact skimNumber_cons_extends b
  · exact skimText_extends.forget
  · exact hnested b
  · exact .of_ne_ok fun _ _ h => nomatch h

/-- A value is read over as before in a longer text if what is nested in it is. -/
theorem skimValueWith_extends (hnested : ∀ b, Extends [] (nested b) (nested' b)) :
    Extends [] (skimValueWith nested) (skimValueWith nested') := by
  refine .of_skipSpace (skimFrom nested) (skimFrom nested') ?_ (fun _ _ _ => skimValueWith_of_cons)
    (fun _ _ _ => skimValueWith_of_cons) (skimFrom_extends hnested)
  intro input hskip r h
  rw [skimValueWith, hskip] at h
  cases h

/-- Reads over a member of an object behind the opening quote of its key. -/
def skimMember (value : Reader Unit) (_ : Unit) : Reader Unit := fun input => do
  let (_, rest) ← skimText input
  let (_, rest) ← readColon rest
  value rest

/-- A member of an object is read over as before if its value is. -/
theorem skimMember_extends {value value' : Reader Unit} (hvalue : Extends [] value value')
    (u : Unit) :
    Extends [] (skimMember value u) (skimMember value' u) :=
  skimText_extends.forget.bind fun _ => readColon_extends.bind fun _ => hvalue

/-- A list or an object is read over as before if its items are, and with more fuel too. -/
theorem skimNested_extends {value value' : Reader Unit} (hvalue : Extends [] value value')
    {fuel fuel' : Nat} (hfuel : fuel ≤ fuel') (opening : UInt8) :
    Extends [] (skimNested fuel value opening) (skimNested fuel' value' opening) := by
  unfold skimNested
  split_ifs
  · exact (foldItems_extends (fun _ => hvalue) hfuel true ()).forget
  · exact (foldMembers_extends (skimMember_extends hvalue) hfuel true ()).forget

/-- More fuel and more levels of nesting change nothing about a value that is read over with less of
them. -/
theorem skimWithin_extends {fuel fuel' depth depth' : Nat} (hfuel : fuel ≤ fuel')
    (hdepth : depth ≤ depth') :
    Extends [] (skimWithin fuel depth) (skimWithin fuel' depth') := by
  induction depth generalizing depth' with
  | zero =>
    have hdeep : ∀ (nested' : UInt8 → Reader Unit) (b : UInt8),
        Extends [] (fun rest => stopAt .tooDeep (b :: rest)) (nested' b) :=
      fun _ _ => .of_ne_ok fun _ _ h => nomatch h
    cases depth' with
    | zero => exact skimValueWith_extends (hdeep _)
    | succ depth' => exact skimValueWith_extends (hdeep _)
  | succ depth ih =>
    obtain ⟨depth', rfl⟩ := Nat.exists_eq_succ_of_ne_zero (Nat.ne_of_gt (Nat.zero_lt_of_lt hdepth))
    exact skimValueWith_extends (skimNested_extends (ih (Nat.le_of_succ_le_succ hdepth)) hfuel)

/-- More fuel does not change what is skimmed. -/
theorem skimValue_extends {fuel fuel' : Nat} (hfuel : fuel ≤ fuel') :
    Extends [] (skimValue fuel) (skimValue fuel') :=
  skimWithin_extends hfuel hfuel

end ExtractionBench.Json
