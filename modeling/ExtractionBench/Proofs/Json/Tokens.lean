import Mathlib.Tactic
import ExtractionBench.Proofs.Json.Printed

/-!
# Strings and brackets in longer texts

A string ends with its closing quote, a list and an object end with their closing brackets. So none
of them is read from the front of a text that stops before, and behind them anything may follow.
-/

namespace ExtractionBench.Json

variable {rule : CommaRule} {first skims : Bool} {b : UInt8} {input more after : List UInt8}

/-! ## Strings -/

theorem eq_quote_of_step {state : TextState} (h : state.step skims b = .close) : b = byte '"' := by
  cases state with
  | plain =>
    rw [TextState.step] at h
    split_ifs at h with hquote
    exact hquote
  | escaped =>
    rw [TextState.step] at h
    split_ifs at h
    split at h
    · cases h
    · cases h
  | hex leading missing value =>
    simp only [TextState.step, stepHex, closeHex] at h
    split_ifs at h
    · split at h
      · cases h
      · cases h
    · split at h
      · split at h
        · split_ifs at h
        · split_ifs at h
      · cases h
  | paired leading =>
    rw [TextState.step] at h
    split_ifs at h
  | pairedEscape leading =>
    rw [TextState.step] at h
    split_ifs at h

/-- A string is read up to its closing quote, whatever follows, from every state of the reader. -/
theorem readTextFrom_extends (state : TextState) (before : List UInt8) :
    Extends [byte '"'] (readTextFrom skims state before) (readTextFrom skims state before) := by
  constructor
  intro input bytes after h
  induction input generalizing state before with
  | nil => cases h
  | cons b input ih =>
    rw [readTextFrom] at h
    cases hstep : state.step skims b with
    | more next taken =>
      rw [hstep] at h
      obtain ⟨hsuffix, hmore⟩ := ih next (taken.reverse ++ before) h
      refine ⟨hsuffix.trans (List.suffix_cons b input), ?_⟩
      intro more hseam
      rw [List.cons_append, readTextFrom, hstep]
      exact hmore more hseam
    | close =>
      rw [hstep] at h
      cases h
      obtain rfl := eq_quote_of_step hstep
      refine ⟨List.suffix_rfl, ?_⟩
      intro more _
      rw [List.cons_append, readTextFrom, hstep]
    | stop problem =>
      rw [hstep] at h
      cases h

/-- A string is read if its bytes up to the quote are read, and these are UTF-8. -/
theorem readText_eq_ok_iff {s : String} :
    readText input = .ok (s, after) ↔
      ∃ bytes, readTextFrom false .plain [] input = .ok (bytes, after) ∧
        String.fromUTF8? ⟨bytes.toArray⟩ = some s := by
  rw [readText, bind_eq_ok_iff]
  constructor
  · rintro ⟨⟨bytes, rest⟩, hbytes, h⟩
    dsimp only at h
    split at h
    · next s' hs =>
      cases h
      exact ⟨bytes, hbytes, hs⟩
    · cases h
  · rintro ⟨bytes, hbytes, hs⟩
    refine ⟨(bytes, after), hbytes, ?_⟩
    dsimp only
    rw [hs]
    rfl

/-- What a string is read as does not depend on what follows its closing quote. -/
theorem readText_extends : Extends [byte '"'] readText readText := by
  constructor
  intro input s after h
  obtain ⟨bytes, hbytes, hs⟩ := readText_eq_ok_iff.mp h
  obtain ⟨hsuffix, hmore⟩ := (readTextFrom_extends .plain []).take hbytes
  refine ⟨hsuffix, ?_⟩
  intro more hseam
  exact readText_eq_ok_iff.mpr ⟨bytes, hmore more hseam, hs⟩

/-- Nor does what is read over as a string. -/
theorem skimText_extends : Extends [byte '"'] skimText skimText :=
  (readTextFrom_extends .plain []).map fun _ => ()

/-- A word is read letter by letter, so nothing behind it matters. -/
theorem readWord_extends (word : List Char) : Extends [] (readWord word) (readWord word) := by
  constructor
  intro input x after h
  induction word generalizing input with
  | nil =>
    cases h
    exact ⟨List.suffix_rfl, fun more _ => rfl⟩
  | cons c word ih =>
    cases input with
    | nil => cases h
    | cons b input =>
      rw [readWord] at h
      by_cases hb : b = byte c
      · rw [if_pos hb] at h
        obtain ⟨hsuffix, hmore⟩ := ih h
        refine ⟨hsuffix.trans (List.suffix_cons b input), ?_⟩
        intro more hseam
        rw [List.cons_append, readWord, if_pos hb]
        exact hmore more hseam
      · rw [if_neg hb] at h
        cases h

/-! ## Between values -/

/-- A colon is found behind white space, whatever follows. -/
theorem readColon_extends : Extends [] readColon readColon := by
  have hcons : ∀ input b rest, skipSpace input = b :: rest →
      readColon input = if b = byte ':' then .ok ((), rest) else stopAt .noColon (b :: rest) := by
    intro input b rest hskip
    rw [readColon, hskip]
  refine .of_skipSpace _ _ ?_ hcons hcons ?_
  · intro input hskip r h
    rw [readColon, hskip] at h
    cases h
  · intro b
    constructor
    intro rest x after h
    by_cases hb : b = byte ':'
    · simp only [if_pos hb] at h ⊢
      cases h
      exact ⟨List.suffix_rfl, fun more _ => rfl⟩
    · rw [if_neg hb] at h
      cases h

/-- Moves to the next item of a list or an object, or takes its closing bracket. Either way it is
known where the item starts or what the bracket was, whatever may follow. -/
structure Moves (next : Bool → Reader Bool) (bracket : UInt8) : Prop where
  take : ∀ {first input present after}, next first input = .ok (present, after) →
    (present = false → bracket :: after <:+ input) ∧ after <:+ input ∧
      ∀ more, next first (input ++ more) = .ok (present, after ++ more)

/-- It is known from the text itself whether a list has another item. -/
theorem nextItem_moves : Moves (nextItem rule) (byte ']') := by
  constructor
  intro first input present after h
  cases hskip : skipSpace input with
  | nil =>
    rw [nextItem, hskip] at h
    cases h
  | cons b rest =>
    have hsuffix : b :: rest <:+ input := hskip ▸ skipSpace_suffix input
    have hmore := fun more => skipSpace_append_of_cons hskip more
    simp only [nextItem, hskip, hmore] at h ⊢
    by_cases hclose : b = byte ']'
    · simp only [if_pos hclose] at h ⊢
      cases h
      subst hclose
      exact ⟨fun _ => hsuffix, (List.suffix_cons _ _).trans hsuffix, fun more => rfl⟩
    · simp only [if_neg hclose] at h ⊢
      cases first with
      | true =>
        cases h
        exact ⟨fun h => absurd h.symm Bool.false_ne_true, hsuffix, fun more => rfl⟩
      | false =>
        simp only [Bool.false_eq_true, if_false] at h ⊢
        by_cases hcomma : b = byte ','
        · simp only [if_pos hcomma] at h ⊢
          cases hskip' : skipSpace rest with
          | nil =>
            rw [hskip'] at h
            cases h
          | cons c item =>
            have hitem : c :: item <:+ rest := hskip' ▸ skipSpace_suffix rest
            simp only [hskip', skipSpace_append_of_cons hskip'] at h ⊢
            by_cases hend : c = byte ']'
            · rw [if_pos hend] at h
              cases h
            · simp only [if_neg hend] at h ⊢
              cases h
              exact ⟨fun h => absurd h.symm Bool.false_ne_true,
                hitem.trans ((List.suffix_cons _ _).trans hsuffix), fun more => rfl⟩
        · rw [if_neg hcomma] at h
          cases h

/-- It is known from the text itself whether an object has another key. -/
theorem nextKey_moves : Moves (nextKey rule) (byte '\x7d') := by
  constructor
  intro first input present after h
  cases hskip : skipSpace input with
  | nil =>
    rw [nextKey, hskip] at h
    cases h
  | cons b rest =>
    have hsuffix : b :: rest <:+ input := hskip ▸ skipSpace_suffix input
    have hrest : rest <:+ input := (List.suffix_cons b rest).trans hsuffix
    have hmore := fun more => skipSpace_append_of_cons hskip more
    simp only [nextKey, hskip, hmore] at h ⊢
    by_cases hclose : b = byte '\x7d'
    · simp only [if_pos hclose] at h ⊢
      cases h
      subst hclose
      exact ⟨fun _ => hsuffix, hrest, fun more => rfl⟩
    · simp only [if_neg hclose] at h ⊢
      cases first with
      | true =>
        simp only [if_true] at h ⊢
        by_cases hquote : b = byte '"'
        · simp only [if_pos hquote] at h ⊢
          cases h
          exact ⟨fun h => absurd h.symm Bool.false_ne_true, hrest, fun more => rfl⟩
        · rw [if_neg hquote] at h
          cases h
      | false =>
        simp only [Bool.false_eq_true, if_false] at h ⊢
        by_cases hcomma : b = byte ','
        · simp only [if_pos hcomma] at h ⊢
          cases hskip' : skipSpace rest with
          | nil =>
            rw [hskip'] at h
            cases h
          | cons c key =>
            have hkey : c :: key <:+ rest := hskip' ▸ skipSpace_suffix rest
            simp only [hskip', skipSpace_append_of_cons hskip'] at h ⊢
            by_cases hquote : c = byte '"'
            · simp only [if_pos hquote] at h ⊢
              cases h
              exact ⟨fun h => absurd h.symm Bool.false_ne_true,
                ((List.suffix_cons _ _).trans hkey).trans hrest, fun more => rfl⟩
            · simp only [if_neg hquote] at h
              split_ifs at h
              · cases h
              · cases h
        · rw [if_neg hcomma] at h
          cases h

/-! ## Items in a row -/

section
variable {σ : Type} {fold fold' : Nat → Bool → σ → Reader σ} {next : Bool → Reader Bool}
  {item item' : σ → Reader σ}
  {bracket : UInt8}

/-- A loop that is read up to its bracket is read so from every longer text, and with more fuel. -/
theorem Loop.extends (h : Loop fold next item bracket) (h' : Loop fold' next item' bracket)
    (hzero : ∀ first state input r, fold 0 first state input ≠ .ok r) (hmoves : Moves next bracket)
    (hitem : ∀ state, Extends [] (item state) (item' state)) {fuel fuel' : Nat}
    (hfuel : fuel ≤ fuel') (first : Bool) (state : σ) :
    Extends [bracket] (fold fuel first state) (fold' fuel' first state) := by
  induction fuel generalizing fuel' first state with
  | zero => exact .of_ne_ok (hzero first state)
  | succ fuel ih =>
    obtain ⟨fuel', rfl⟩ := Nat.exists_eq_succ_of_ne_zero (Nat.ne_of_gt (Nat.zero_lt_of_lt hfuel))
    constructor
    intro input x after hread
    rw [h.round] at hread
    obtain ⟨⟨present, middle⟩, hnext, hrest⟩ := bind_eq_ok_iff.mp hread
    obtain ⟨hclose, hmiddle, hmove⟩ := hmoves.take hnext
    cases present with
    | false =>
      cases hrest
      refine ⟨hclose rfl, ?_⟩
      intro more _
      rw [h'.round, hmove more]
      rfl
    | true =>
      have hround := (hitem state).bind fun state => ih (Nat.le_of_succ_le_succ hfuel) false state
      obtain ⟨hsuffix, hmore⟩ := hround.take hrest
      refine ⟨hsuffix.trans hmiddle, ?_⟩
      intro more hseam
      rw [h'.round, hmove more]
      exact hmore more hseam

/-- The items of a list are read up to its bracket if each of them is read alike in longer texts. -/
theorem foldItems_extends (hitem : ∀ state, Extends [] (item state) (item' state))
    {fuel fuel' : Nat} (hfuel : fuel ≤ fuel') (first : Bool) (state : σ) :
    Extends [byte ']'] (foldItems rule item fuel first state)
      (foldItems rule item' fuel' first state) :=
  foldItems_loop.extends foldItems_loop (fun _ _ _ _ h => nomatch h) nextItem_moves hitem hfuel
    first state

/-- The members of an object are read up to its brace if each of them is read alike in longer
texts. -/
theorem foldMembers_extends (hitem : ∀ state, Extends [] (item state) (item' state))
    {fuel fuel' : Nat} (hfuel : fuel ≤ fuel') (first : Bool) (state : σ) :
    Extends [byte '\x7d'] (foldMembers rule item fuel first state)
      (foldMembers rule item' fuel' first state) :=
  foldMembers_loop.extends foldMembers_loop (fun _ _ _ _ h => nomatch h) nextKey_moves hitem hfuel
    first state

end

end ExtractionBench.Json
