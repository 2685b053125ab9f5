import Mathlib.Tactic
import ExtractionBench.Proofs.Json.Skimming

/-!
# Numerals

A number of a JSON text is written with digits of which no zero leads others, then maybe a point
with digits and a power of ten. Every numeral is skimmed to its end. It is also read to its end,
unless what its digits make up is beyond the range of doubles: nothing else can be wrong with it.
-/

namespace ExtractionBench.Json

variable {rest ds : List UInt8} {d : UInt8} {bound n : Nat}

/-! ## The grammar -/

/-- Digits only. -/
def Digits (ds : List UInt8) : Prop := ∀ d ∈ ds, isDigit d = true

/-- The digits before the point. -/
inductive Whole : List UInt8 → Prop
  | zero : Whole [byte '0']
  | digits {d : UInt8} {ds : List UInt8} (hd : isDigit d = true) (hne : d ≠ byte '0')
      (hds : Digits ds) : Whole (d :: ds)

/-- A power of ten as it is written. -/
structure Power where
  letter : UInt8
  sign? : Option UInt8
  digits : List UInt8
  isLetter : letter = byte 'e' ∨ letter = byte 'E'
  isSign : ∀ b ∈ sign?, b = byte '-' ∨ b = byte '+'
  isDigits : Digits digits
  nonempty : digits ≠ []

/-- A number as it is written. -/
structure Numeral where
  /-- Whether there is a minus sign. -/
  negative : Bool
  whole : List UInt8
  /-- The digits behind the point; if there are none, there is no point either. -/
  fraction : List UInt8
  power? : Option Power
  isWhole : Whole whole
  isFraction : Digits fraction

/-- The bytes of a power, or none. -/
def powerBytes : Option Power → List UInt8
  | none => []
  | some p => p.letter :: (p.sign?.toList ++ p.digits)

/-- The digits behind a point with the point, or none. -/
def pointed : List UInt8 → List UInt8
  | [] => []
  | d :: ds => byte '.' :: d :: ds

/-- The numeral behind its sign. -/
def Numeral.digits (n : Numeral) : List UInt8 :=
  n.whole ++ (pointed n.fraction ++ powerBytes n.power?)

/-- The bytes of a numeral. -/
def Numeral.bytes (n : Numeral) : List UInt8 :=
  if n.negative then byte '-' :: n.digits else n.digits

/-! ## What a numeral stands for -/

/-- The number that digits behind those of `n` make up. -/
def valueFrom (n : Nat) (ds : List UInt8) : Nat := ds.foldl (fun n d => 10 * n + digitValue d) n

/-- The significand times a power of ten, none if it is beyond the range of doubles. A power whose
own number does not fit its bits is beyond the range, or makes zero. -/
def scaled? (significand : Nat) (exponent : Int) : Option Power → Option Double
  | none => compose significand exponent
  | some p =>
    let down := p.sign? = some (byte '-')
    let value := valueFrom 0 p.digits
    if value < exponentBound then
      compose significand (if down then exponent - value else exponent + value)
    else if significand = 0 ∨ down then some .zero
    else none

/-- The leading digits that fit 64 bits, as a number, and its power of ten: up by one for each digit
left out before the point, down by one for each digit kept behind it. -/
def Numeral.leading (n : Numeral) : Nat × Int :=
  let front := accumulate significandBound 0 n.whole
  let behind := accumulate significandBound front.1 n.fraction
  (behind.1, front.2.2.length - behind.2.1)

/-- A real with a sign. -/
def real (negative : Bool) (x : Double) : Number := .real (if negative then -x else x)

/-- The number that a numeral stands for, none if it is beyond the range of doubles: whole if it is
written so and fits 64 bits, otherwise its leading digits times a power of ten. -/
def Numeral.number? (n : Numeral) : Option Number :=
  if n.fraction = [] ∧ n.power?.isNone ∧ valueFrom 0 n.whole < significandBound then
    some (wholeNumber n.negative (valueFrom 0 n.whole))
  else (scaled? n.leading.1 n.leading.2 n.power?).map (real n.negative)

/-! ## Runs of digits -/

theorem Digits.of_suffix {ds' : List UInt8} (h : Digits ds) (hsuffix : ds' <:+ ds) : Digits ds' :=
  fun d hd => h d (hsuffix.subset hd)

theorem Digits.cons (h : Digits (d :: ds)) : isDigit d = true ∧ Digits ds :=
  List.forall_mem_cons.mp h

/-- All digits are dropped, and nothing behind them. -/
theorem Digits.dropWhile_append (h : Digits ds) (hrest : startsWithDigit rest = false) :
    (ds ++ rest).dropWhile isDigit = rest := by
  rw [List.dropWhile_append_of_pos h]
  cases rest with
  | nil => rfl
  | cons b rest =>
    have hb : isDigit b = false := hrest
    simp [hb]

/-- All digits are taken, and nothing behind them. -/
theorem Digits.takeWhile_append (h : Digits ds) (hrest : startsWithDigit rest = false) :
    (ds ++ rest).takeWhile isDigit = ds := by
  rw [List.takeWhile_append_of_pos h]
  cases rest with
  | nil => simp
  | cons b rest =>
    have hb : isDigit b = false := hrest
    simp [hb]

theorem digitValue_lt (hd : isDigit d = true) : digitValue d < 10 := by
  have hle : d ≤ byte '9' := by
    rw [isDigit, Bool.and_eq_true, decide_eq_true_iff, decide_eq_true_iff] at hd
    exact hd.2
  have hnat : d.toNat ≤ 57 := UInt8.le_iff_toNat_le.mp hle
  have hzero : (byte '0').toNat = 48 := rfl
  rw [digitValue, hzero]
  omega

theorem valueFrom_cons (n : Nat) (d : UInt8) (ds : List UInt8) :
    valueFrom n (d :: ds) = valueFrom (10 * n + digitValue d) ds := by
  rw [valueFrom, List.foldl_cons, valueFrom]

/-- Further digits make a number no smaller. -/
theorem le_valueFrom (n : Nat) (ds : List UInt8) : n ≤ valueFrom n ds := by
  induction ds generalizing n with
  | nil => exact Nat.le_refl n
  | cons d ds ih =>
    rw [valueFrom_cons]
    have hnext := ih (10 * n + digitValue d)
    omega

/-- Digits whose number stays below the bound are all kept. -/
theorem Digits.accumulate_of_lt (h : Digits ds) (hvalue : valueFrom n ds < bound) :
    accumulate bound n ds = (valueFrom n ds, ds.length, []) := by
  induction ds generalizing n with
  | nil => rfl
  | cons d ds ih =>
    obtain ⟨hd, hds⟩ := h.cons
    rw [valueFrom_cons] at hvalue ⊢
    have hkeep : 10 * n + digitValue d < bound := Nat.lt_of_le_of_lt (le_valueFrom _ ds) hvalue
    rw [accumulate, hd, decide_eq_true hkeep, ih hds hvalue]
    rfl

/-- Digits whose number reaches the bound are not all kept. -/
theorem Digits.startsWithDigit_accumulate (h : Digits ds) (hn : n < bound)
    (hvalue : bound ≤ valueFrom n ds) :
    startsWithDigit (accumulate bound n ds).2.2 = true := by
  induction ds generalizing n with
  | nil => exact absurd hn (Nat.not_lt.mpr hvalue)
  | cons d ds ih =>
    obtain ⟨hd, hds⟩ := h.cons
    by_cases hkeep : 10 * n + digitValue d < bound
    · have hstep : (accumulate bound n (d :: ds)).2.2 =
          (accumulate bound (10 * n + digitValue d) ds).2.2 := by
        rw [accumulate, hd, decide_eq_true hkeep]
        rfl
      rw [hstep]
      exact ih hds hkeep hvalue
    · rw [accumulate, hd, decide_eq_false hkeep]
      exact hd

/-- The first digit of a number is kept. -/
theorem accumulate_first (hd : isDigit d = true) :
    accumulate significandBound 0 (d :: ds) =
      ((accumulate significandBound (digitValue d) ds).1,
        (accumulate significandBound (digitValue d) ds).2.1 + 1,
        (accumulate significandBound (digitValue d) ds).2.2) := by
  have hkeep : 10 * 0 + digitValue d < significandBound := by
    rw [Nat.mul_zero, Nat.zero_add]
    exact Nat.lt_trans (digitValue_lt hd) (by decide)
  rw [accumulate, hd, decide_eq_true hkeep, Nat.mul_zero, Nat.zero_add]
  rfl

/-- Every digit is either counted or left. -/
theorem length_accumulate (bound n : Nat) (input : List UInt8) :
    (accumulate bound n input).2.1 + (accumulate bound n input).2.2.length = input.length := by
  induction input generalizing n with
  | nil => rfl
  | cons b input ih =>
    simp only [accumulate]
    split
    · have hrest := ih (10 * n + digitValue b)
      rw [List.length_cons, ← hrest]
      exact Nat.add_right_comm _ 1 _
    · simp

theorem ne_of_isDigit {b : UInt8} (hd : isDigit d = true) (hb : isDigit b = false) : d ≠ b := by
  rintro rfl
  rw [hd] at hb
  cases hb

theorem Power.letter_eq (p : Power) : (p.letter = byte 'e' || p.letter = byte 'E') = true := by
  rw [Bool.or_eq_true, decide_eq_true_iff, decide_eq_true_iff]
  exact p.isLetter

theorem Power.letter_ne_point (p : Power) : p.letter ≠ byte '.' := by
  rcases p.isLetter with h | h
  · rw [h]
    decide
  · rw [h]
    decide

/-- An exponent does not start with a digit. -/
theorem startsWithDigit_powerBytes (p? : Option Power) (hrest : EndsNumber rest) :
    startsWithDigit (powerBytes p? ++ rest) = false := by
  cases p? with
  | none => exact hrest.startsWithDigit
  | some p =>
    have hletter : isDigit p.letter = false := by
      rcases p.isLetter with h | h
      · rw [h]
        rfl
      · rw [h]
        rfl
    exact hletter

/-- Nor do a point and the digits behind it. -/
theorem startsWithDigit_pointed (ds : List UInt8) (p? : Option Power) (hrest : EndsNumber rest) :
    startsWithDigit (pointed ds ++ (powerBytes p? ++ rest)) = false := by
  cases ds with
  | nil => exact startsWithDigit_powerBytes p? hrest
  | cons d ds => rfl

/-- The first digit, and what the readers find behind it. -/
theorem Numeral.exists_digits (n : Numeral) :
    ∃ d ds, n.whole = d :: ds ∧ isDigit d = true ∧ Digits ds ∧
      ∀ rest, startsWithDigit rest = false →
        ¬ (d = byte '0' && startsWithDigit (ds ++ rest)) = true := by
  obtain ⟨negative, whole, fraction, power?, hwhole, -⟩ := n
  cases hwhole with
  | zero =>
    refine ⟨byte '0', [], rfl, rfl, fun d hd => (List.not_mem_nil hd).elim, ?_⟩
    intro rest hrest
    simp [hrest]
  | @digits d ds hd hne hds =>
    refine ⟨d, ds, rfl, hd, hds, ?_⟩
    intro rest _ hzero
    exact hne (of_decide_eq_true (Bool.and_eq_true_iff.mp hzero).1)

/-! ## Numerals are skimmed -/

/-- The digits of an exponent are read over up to their end. -/
theorem skimPower_digits (h : Digits ds) (hne : ds ≠ []) (hrest : EndsNumber rest) :
    skimPower (ds ++ rest) = .ok ((), rest) := by
  obtain ⟨d, ds, rfl⟩ := List.exists_cons_of_ne_nil hne
  obtain ⟨hd, hds⟩ := h.cons
  rw [List.cons_append, skimPower, if_pos hd, hds.dropWhile_append hrest.startsWithDigit]

/-- An exponent, if there is one, is read over up to its end. -/
theorem skimScale_powerBytes (p? : Option Power) (hrest : EndsNumber rest) :
    skimScale (powerBytes p? ++ rest) = .ok ((), rest) := by
  cases p? with
  | none => exact skimScale_of_endsNumber hrest
  | some p =>
    have hdigits := skimPower_digits p.isDigits p.nonempty hrest
    rw [powerBytes, List.cons_append, skimScale, if_pos p.letter_eq, List.append_assoc]
    cases hsign : p.sign? with
    | none =>
      obtain ⟨d, ds, hd⟩ := List.exists_cons_of_ne_nil p.nonempty
      have hdigit : isDigit d = true := p.isDigits d (hd ▸ List.mem_cons_self)
      have hother : ¬ (d = byte '-' || d = byte '+') = true := by
        rw [Bool.or_eq_true, decide_eq_true_iff, decide_eq_true_iff, not_or]
        exact ⟨ne_of_isDigit hdigit rfl, ne_of_isDigit hdigit rfl⟩
      rw [hd] at hdigits ⊢
      rw [Option.toList_none, List.nil_append, List.cons_append, skimExponent_cons, if_neg hother]
      exact hdigits
    | some b =>
      have hb : (b = byte '-' || b = byte '+') = true := by
        rw [Bool.or_eq_true, decide_eq_true_iff, decide_eq_true_iff]
        exact p.isSign b hsign
      rw [Option.toList_some, List.singleton_append, skimExponent_cons, if_pos hb]
      exact hdigits

/-- A fraction and an exponent are read over up to their end. -/
theorem skimBehind_pointed (h : Digits ds) (p? : Option Power) (hrest : EndsNumber rest) :
    skimBehind (pointed ds ++ (powerBytes p? ++ rest)) = .ok ((), rest) := by
  have hscale := skimScale_powerBytes p? hrest
  cases ds with
  | nil =>
    cases p? with
    | none => exact skimBehind_of_endsNumber hrest
    | some p =>
      rw [powerBytes, List.cons_append] at hscale ⊢
      rw [pointed, List.nil_append, skimBehind, if_neg p.letter_ne_point]
      exact hscale
  | cons d ds =>
    have hstart : startsWithDigit ((d :: ds) ++ (powerBytes p? ++ rest)) = true :=
      h d List.mem_cons_self
    rw [pointed, List.cons_append, skimBehind, if_pos rfl, if_pos hstart,
      h.dropWhile_append (startsWithDigit_powerBytes p? hrest)]
    exact hscale

/-- A numeral is read over up to its end. -/
theorem Numeral.skimNumber_digits (n : Numeral) (hrest : EndsNumber rest) :
    skimNumber (n.digits ++ rest) = .ok ((), rest) := by
  obtain ⟨d, ds, hwhole, hd, hds, hzero⟩ := n.exists_digits
  have hstart := startsWithDigit_pointed n.fraction n.power? hrest
  rw [Numeral.digits, List.append_assoc, List.append_assoc, hwhole, List.cons_append,
    skimNumber_cons, if_neg (by simp [hd]), if_neg (hzero _ hstart), hds.dropWhile_append hstart]
  exact skimBehind_pointed n.isFraction n.power? hrest

/-! ## Numerals are read -/

/-- The reader takes a number up to the end of the bytes, or finds it out of range, whatever
follows. -/
def Consumes (read : Reader Number) (bytes : List UInt8) (n? : Option Number) : Prop :=
  ∀ rest, EndsNumber rest →
    match n? with
    | some n => read (bytes ++ rest) = .ok (n, rest)
    | none => ∃ stop, read (bytes ++ rest) = .error stop ∧ stop.problem = .numberOutOfRange

/-- A reader consumes what one consumes that reads the same. -/
theorem Consumes.of_eq {read read' : Reader Number} {bytes bytes' : List UInt8} {n? : Option Number}
    (h : Consumes read' bytes' n?)
    (heq : ∀ rest, EndsNumber rest → read (bytes ++ rest) = read' (bytes' ++ rest)) :
    Consumes read bytes n? := by
  intro rest hrest
  rw [heq rest hrest]
  exact h rest hrest

section
variable (negative : Bool) (significand : Nat) (exponent : Int)

/-- A number is made up of its digits and exponent, if it is not too large. -/
theorem realOf_consumes : Consumes (realOf negative significand exponent) []
    ((compose significand exponent).map (real negative)) := by
  intro rest _
  cases hcompose : compose significand exponent with
  | some x => simp only [realOf, hcompose, List.nil_append, Option.map_some, real]
  | none =>
    simp only [realOf, hcompose, List.nil_append, Option.map_none]
    exact ⟨_, rfl, rfl⟩

/-- The digits of an exponent are all consumed. A number that they make too large is refused, and
one that they make too small is zero. -/
theorem readPower_consumes (down : Bool) (h : Digits ds) (hne : ds ≠ []) :
    Consumes (readPower negative significand exponent down) ds
      ((if valueFrom 0 ds < exponentBound then
          compose significand
            (if down then exponent - valueFrom 0 ds else exponent + valueFrom 0 ds)
        else if significand = 0 ∨ down then some .zero
        else none).map (real negative)) := by
  obtain ⟨d, ds, rfl⟩ := List.exists_cons_of_ne_nil hne
  obtain ⟨hd, hds⟩ := h.cons
  have hvalue : valueFrom 0 (d :: ds) = valueFrom (digitValue d) ds := by
    rw [valueFrom_cons, Nat.mul_zero, Nat.zero_add]
  let kept := accumulate exponentBound (digitValue d) ds
  have hkept : Digits kept.2.2 := hds.of_suffix (accumulate_suffix _ _ ds)
  have heq : ∀ rest, EndsNumber rest →
      readPower negative significand exponent down (d :: ds ++ rest) =
        if startsWithDigit (kept.2.2 ++ rest) then
          if significand ≠ 0 && !down then stopAfter .numberOutOfRange ((kept.2.2 ++ rest).drop 1)
          else .ok (real negative .zero, (kept.2.2 ++ rest).dropWhile isDigit)
        else realOf negative significand (if down then exponent - kept.1 else exponent + kept.1)
          (kept.2.2 ++ rest) := by
    intro rest hrest
    rw [List.cons_append, readPower, if_pos hd, accumulate_append fun _ => hrest.startsWithDigit]
    rfl
  rw [hvalue]
  by_cases hlt : valueFrom (digitValue d) ds < exponentBound
  · have hall : kept = (valueFrom (digitValue d) ds, ds.length, []) := hds.accumulate_of_lt hlt
    rw [if_pos hlt]
    refine (realOf_consumes negative significand _).of_eq fun rest hrest => ?_
    rw [heq rest hrest, hall, List.nil_append, if_neg (by simp [hrest.startsWithDigit])]
  · have hfirst : digitValue d < exponentBound := Nat.lt_trans (digitValue_lt hd) (by decide)
    have hover : startsWithDigit kept.2.2 = true :=
      hds.startsWithDigit_accumulate hfirst (Nat.not_lt.mp hlt)
    have hstart : ∀ rest, EndsNumber rest → startsWithDigit (kept.2.2 ++ rest) = true := by
      intro rest hrest
      rw [startsWithDigit_append fun _ => hrest.startsWithDigit, hover]
    rw [if_neg hlt]
    by_cases hzero : significand = 0 ∨ down = true
    · have hin : ¬ (significand ≠ 0 && !down) = true := by
        rcases hzero with hzero | hdown
        · simp [hzero]
        · simp [hdown]
      rw [if_pos hzero]
      intro rest hrest
      simp only [heq rest hrest, if_pos (hstart rest hrest), if_neg hin,
        hkept.dropWhile_append hrest.startsWithDigit, Option.map_some]
    · have hout : (significand ≠ 0 && !down) = true := by
        rw [not_or] at hzero
        simp [hzero.1, hzero.2]
      rw [if_neg hzero]
      intro rest hrest
      simp only [heq rest hrest, if_pos (hstart rest hrest), if_pos hout, Option.map_none]
      exact ⟨_, rfl, rfl⟩

/-- An exponent, if there is one, is consumed and scales the number. -/
theorem readScale_consumes (p? : Option Power) :
    Consumes (readScale negative significand exponent) (powerBytes p?)
    ((scaled? significand exponent p?).map (real negative)) := by
  cases p? with
  | none => exact (realOf_consumes negative significand exponent).of_eq fun rest hrest =>
    readScale_of_endsNumber hrest
  | some p =>
    have hread := readPower_consumes negative significand exponent (p.sign? = some (byte '-'))
      p.isDigits p.nonempty
    simp only [decide_eq_true_eq] at hread
    refine hread.of_eq fun rest _ => ?_
    rw [powerBytes, List.cons_append, readScale, if_pos p.letter_eq, List.append_assoc]
    cases hsign : p.sign? with
    | none =>
      obtain ⟨d, ds, hd⟩ := List.exists_cons_of_ne_nil p.nonempty
      have hdigit : isDigit d = true := p.isDigits d (hd ▸ List.mem_cons_self)
      have hminus : d ≠ byte '-' := ne_of_isDigit hdigit rfl
      have hplus : d ≠ byte '+' := ne_of_isDigit hdigit rfl
      rw [hd, Option.toList_none, List.nil_append, List.cons_append, readExponent_cons,
        if_neg hminus, if_neg hplus]
      rfl
    | some b =>
      rw [Option.toList_some, List.singleton_append, readExponent_cons]
      rcases p.isSign b hsign with rfl | rfl
      · rfl
      · rfl

/-- The digits behind a point are consumed with the exponent, and those that do not fit into the
significand are left out. -/
theorem readFraction_consumes (h : Digits ds) (hne : ds ≠ []) (p? : Option Power) :
    Consumes (readFraction negative significand exponent) (ds ++ powerBytes p?)
      ((scaled? (accumulate significandBound significand ds).1
        (exponent - (accumulate significandBound significand ds).2.1) p?).map (real negative)) := by
  let kept := accumulate significandBound significand ds
  have hkept : Digits kept.2.2 := h.of_suffix (accumulate_suffix _ _ ds)
  refine (readScale_consumes negative kept.1 (exponent - kept.2.1) p?).of_eq fun rest hrest => ?_
  have hstart := startsWithDigit_powerBytes p? hrest
  rw [List.append_assoc, readFraction, accumulate_append fun _ => hstart]
  dsimp only
  rw [startsWithDigit_append fun _ => hstart, hkept.dropWhile_append hstart]
  by_cases hover : startsWithDigit kept.2.2 = true
  · rw [if_pos hover]
  · have hnil : kept.2.2 = [] := by
      cases hcase : kept.2.2 with
      | nil => rfl
      | cons b more => exact absurd (hkept b (hcase ▸ List.mem_cons_self)) (by rwa [hcase] at hover)
    have hcount : kept.2.1 ≠ 0 := by
      have hlength := length_accumulate significandBound significand ds
      change kept.2.1 + kept.2.2.length = _ at hlength
      have hpos := List.length_pos_of_ne_nil hne
      rw [hnil, List.length_nil] at hlength
      omega
    rw [if_neg hover, if_neg hcount, hnil, List.nil_append]

end

/-- A numeral is read to its end as what it stands for, or is out of range; what follows makes no
difference. -/
theorem Numeral.consumes (n : Numeral) : Consumes (readNumber n.negative) n.digits n.number? := by
  obtain ⟨d, ds, hwhole, hd, hds, hzero⟩ := n.exists_digits
  let kept := accumulate significandBound (digitValue d) ds
  have hkept : Digits kept.2.2 := hds.of_suffix (accumulate_suffix _ _ ds)
  have hfront : accumulate significandBound 0 n.whole = (kept.1, kept.2.1 + 1, kept.2.2) := by
    rw [hwhole]
    exact accumulate_first hd
  have hdigits : Digits n.whole := by
    rw [hwhole]
    exact List.forall_mem_cons.mpr ⟨hd, hds⟩
  have hbehind : ∀ rest, EndsNumber rest → readNumber n.negative (n.digits ++ rest) =
      readBehind n.negative kept.1 kept.2.2
        (pointed n.fraction ++ (powerBytes n.power? ++ rest)) := by
    intro rest hrest
    have hstart := startsWithDigit_pointed n.fraction n.power? hrest
    rw [Numeral.digits, List.append_assoc, List.append_assoc, hwhole, List.cons_append,
      readNumber_cons,
      if_neg (by simp [hd]), if_neg (hzero _ hstart), accumulate_append fun _ => hstart]
    dsimp only
    rw [hkept.takeWhile_append hstart, hkept.dropWhile_append hstart]
  have hleading : n.leading = ((accumulate significandBound kept.1 n.fraction).1,
      (kept.2.2.length : Int) - (accumulate significandBound kept.1 n.fraction).2.1) := by
    rw [Numeral.leading, hfront]
  rw [Numeral.number?, hleading]
  cases hfraction : n.fraction with
  | cons f fs =>
    have hne : f :: fs ≠ [] := List.cons_ne_nil f fs
    rw [if_neg fun h => hne h.1]
    refine (readFraction_consumes n.negative kept.1 kept.2.2.length (hfraction ▸ n.isFraction) hne
      n.power?).of_eq ?_
    intro rest hrest
    rw [hbehind rest hrest, hfraction, pointed, List.cons_append, readBehind, if_pos rfl,
      List.append_assoc]
  | nil =>
    have hnothing : (accumulate significandBound kept.1 []) = (kept.1, 0, []) := rfl
    rw [hnothing, Nat.cast_zero, Int.sub_zero]
    cases hpower : n.power? with
    | some p =>
      rw [if_neg fun h => Bool.false_ne_true h.2.1]
      refine (readScale_consumes n.negative kept.1 kept.2.2.length (some p)).of_eq ?_
      intro rest hrest
      rw [hbehind rest hrest, hfraction, hpower, pointed, List.nil_append, powerBytes,
        List.cons_append, readBehind, if_neg p.letter_ne_point, if_pos p.letter_eq, readScale,
        if_pos p.letter_eq]
    | none =>
      have hend : ∀ rest, EndsNumber rest →
          readNumber n.negative (n.digits ++ rest) =
            wholeOrReal n.negative kept.1 kept.2.2 rest := by
        intro rest hrest
        rw [hbehind rest hrest, hfraction, hpower]
        exact readBehind_of_endsNumber hrest
      by_cases hfits : valueFrom 0 n.whole < significandBound
      · have hall :
            (kept.1, kept.2.1 + 1, kept.2.2) = (valueFrom 0 n.whole, n.whole.length, []) := by
          rw [← hfront]
          exact hdigits.accumulate_of_lt hfits
        obtain ⟨hvalue, hrest⟩ := Prod.mk.inj hall
        have hnone : kept.2.2 = [] := (Prod.mk.inj hrest).2
        rw [if_pos ⟨rfl, rfl, hfits⟩]
        intro rest hrest
        dsimp only
        rw [hend rest hrest, wholeOrReal, hnone, hvalue]
        rfl
      · have hsome := hdigits.startsWithDigit_accumulate (by decide) (Nat.not_lt.mp hfits)
        rw [hfront] at hsome
        have hbeyond : ¬ kept.2.2.isEmpty = true := by
          intro hempty
          rw [List.isEmpty_iff.mp hempty] at hsome
          cases hsome
        rw [if_neg fun h => hfits h.2.2]
        refine (realOf_consumes n.negative kept.1 kept.2.2.length).of_eq ?_
        intro rest hrest
        rw [hend rest hrest, wholeOrReal, if_neg hbeyond, List.nil_append]

end ExtractionBench.Json
