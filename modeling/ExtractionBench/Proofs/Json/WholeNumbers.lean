import Mathlib
import ExtractionBench.Proofs.Decimal.Whole
import ExtractionBench.Proofs.Json.Numbers
import ExtractionBench.Proofs.Text.Bytes

/-!
# Which numbers are read back

A number with a digit behind the point is read as its digits without the point, divided by ten. For
a whole number this is exact up to `1801439850948198`: ten times the number is then a double, and so
is the quotient. The number after it is not read back.
-/

namespace ExtractionBench.Json

open Decimal (digits)
open ExtractionBench.Text (toNat_byte)

/-- A double is found again when the text that is written for it is read. -/
def ReadsBack (x : Double) : Prop := read? (realFormat.write x) = .ok (.number (.real x))

/-- What the reader makes of the digits of a number with a zero behind the point. -/
def tenthOfTenfold (n : Nat) : Double := Double.ofNat (10 * n) / powerOfTen 1

/-! ## Digits -/

theorem toNat_digit {c : Char} (h : c.isDigit = true) : 48 ≤ c.toNat ∧ c.toNat ≤ 57 :=
  Char.isDigit_iff_toNat.mp h

theorem isDigit_byte {c : Char} (h : c.isDigit = true) : isDigit (byte c) = true := by
  obtain ⟨hlow, hhigh⟩ := toNat_digit h
  have hvalue := toNat_byte (by omega : c.toNat < 128)
  simp only [isDigit, Bool.and_eq_true, decide_eq_true_eq, UInt8.le_iff_toNat_le, hvalue]
  exact ⟨hlow, hhigh⟩

theorem digitValue_byte {c : Char} (h : c.isDigit = true) :
    digitValue (byte c) = c.toNat - '0'.toNat := by
  obtain ⟨hlow, hhigh⟩ := toNat_digit h
  rw [digitValue, toNat_byte (by omega)]
  rfl

theorem accumulate_digits {bound a : Nat} {cs : List Char} (hcs : ∀ c ∈ cs, c.isDigit = true)
    {rest : List UInt8} (hbound : Nat.ofDigitChars 10 cs a < bound)
    (hrest : startsWithDigit rest = false) :
    accumulate bound a (cs.map byte ++ rest) = (Nat.ofDigitChars 10 cs a, cs.length, rest) := by
  induction cs generalizing a with
  | nil =>
    cases rest with
    | nil => rfl
    | cons b rest =>
      have hb : isDigit b = false := hrest
      simp [accumulate, hb]
  | cons c cs ih =>
    obtain ⟨hc, hcs⟩ := List.forall_mem_cons.mp hcs
    rw [Nat.ofDigitChars_cons, ← digitValue_byte hc] at hbound ⊢
    have hstep : 10 * a + digitValue (byte c) < bound := by
      rw [Nat.ofDigitChars_eq_ofDigitChars_zero] at hbound
      have hpow : 1 ≤ 10 ^ cs.length := Nat.one_le_pow _ _ (by norm_num)
      have := Nat.le_mul_of_pos_left (10 * a + digitValue (byte c)) hpow
      omega
    rw [List.map_cons, List.cons_append, accumulate, isDigit_byte hc, decide_eq_true hstep,
      ih hcs hbound]
    rfl

/-- The digits of a number above zero do not start with a zero. -/
theorem digits_head {n : Nat} (hn : 0 < n) : ∃ c cs, digits n = c :: cs ∧ c ≠ '0' := by
  induction n using Nat.strongRecOn with
  | ind n ih =>
    by_cases hsmall : n < 10
    · refine ⟨Nat.digitChar n, [], Nat.toDigits_of_lt_base hsmall, ?_⟩
      interval_cases n <;> decide
    · obtain ⟨c, cs, hdigits, hc⟩ := ih (n / 10) (by omega) (by omega)
      refine ⟨c, cs ++ [Nat.digitChar (n % 10)], ?_, hc⟩
      rw [digits, Nat.toDigits_of_base_le (by norm_num) (by omega)]
      change digits (n / 10) ++ _ = _
      rw [hdigits, List.cons_append]

/-! ## Reading digits with a zero behind the point -/

variable {n : Nat}

theorem isDigit_of_mem_digits {c : Char} (h : c ∈ digits n) : c.isDigit = true :=
  Nat.isDigit_of_mem_toDigits (by norm_num) (by norm_num) h

/-- The digits of a number, taken apart as the reader takes them. -/
theorem digits_cons (n : Nat) :
    ∃ c cs, digits n = c :: cs ∧ c.isDigit = true ∧ (∀ d ∈ cs, d.isDigit = true)
    ∧ Nat.ofDigitChars 10 cs (digitValue (byte c)) = n ∧ (byte c = byte '0' → cs = []) := by
  obtain ⟨c, cs, hdigits⟩ : ∃ c cs, digits n = c :: cs :=
    List.exists_cons_of_ne_nil Nat.toDigits_ne_nil
  have hall : ∀ d ∈ c :: cs, d.isDigit = true := fun d hd => isDigit_of_mem_digits (hdigits ▸ hd)
  obtain ⟨hc, hcs⟩ := List.forall_mem_cons.mp hall
  refine ⟨c, cs, hdigits, hc, hcs, ?_, ?_⟩
  · have hvalue : Nat.ofDigitChars 10 (digits n) 0 = n := Nat.ofDigitChars_ten_toDigits
    rw [hdigits, Nat.ofDigitChars_cons, Nat.mul_zero, Nat.zero_add, ← digitValue_byte hc] at hvalue
    exact hvalue
  · intro hzero
    rcases Nat.eq_zero_or_pos n with rfl | hpos
    · exact (List.cons.inj hdigits).2.symm
    · obtain ⟨d, ds, hdigits', hd⟩ := digits_head hpos
      obtain ⟨rfl, rfl⟩ := List.cons.inj (hdigits.symm.trans hdigits')
      have hvalue : c.toNat = '0'.toNat := by
        have hbytes := congrArg UInt8.toNat hzero
        obtain ⟨hlow, hhigh⟩ := toNat_digit hc
        rwa [toNat_byte (by omega), toNat_byte (by decide)] at hbytes
      exact absurd (Char.toNat_inj.mp hvalue) hd

theorem compose_tenth (significand : Nat) :
    compose significand (-1) = some (Double.ofNat significand / powerOfTen 1) := by
  have hstep : (1 : Nat) ≤ 308 := by norm_num
  rw [compose, if_pos (by norm_num)]
  change some (shrink (Double.ofNat significand) 1) = _
  rw [shrink, if_pos hstep]

/-- Digits with a zero behind the point are read as ten times their number, divided by ten. -/
theorem readNumber_whole (negative : Bool) (hn : 10 * n < twoTo 64) :
    readNumber negative ((digits n).map byte ++ [byte '.', byte '0'])
      = .ok (.real (if negative then -tenthOfTenfold n else tenthOfTenfold n), []) := by
  obtain ⟨c, cs, hdigits, hc, hcs, hvalue, hzero⟩ := digits_cons n
  have hwhole :
      accumulate significandBound (digitValue (byte c)) (cs.map byte ++ [byte '.', byte '0'])
      = (n, cs.length, [byte '.', byte '0']) := by
    have hbound : Nat.ofDigitChars 10 cs (digitValue (byte c)) < significandBound := by
      rw [hvalue]
      exact Nat.lt_of_le_of_lt (Nat.le_mul_of_pos_left n (by norm_num)) hn
    rw [accumulate_digits hcs hbound rfl, hvalue]
  have hfraction : accumulate significandBound n [byte '0'] = (10 * n, 1, []) := by
    have hbound : 10 * n + digitValue (byte '0') < significandBound := hn
    have hisDigit : isDigit (byte '0') = true := rfl
    rw [accumulate, hisDigit, decide_eq_true hbound]
    rfl
  have hleading :
      ¬ (byte c = byte '0' && startsWithDigit (cs.map byte ++ [byte '.', byte '0'])) = true := by
    rw [Bool.and_eq_true, decide_eq_true_iff]
    rintro ⟨hc, hstarts⟩
    rw [hzero hc] at hstarts
    cases hstarts
  rw [hdigits, List.map_cons, List.cons_append, readNumber_cons, isDigit_byte hc,
    if_neg (by decide), if_neg hleading, hwhole]
  change readFraction negative n 0 [byte '0'] = _
  simp only [readFraction, hfraction, startsWithDigit, Bool.false_eq_true, if_false,
    Nat.one_ne_zero, readScale]
  change realOf negative (10 * n) (-1) [] = _
  rw [realOf, compose_tenth]
  rfl

/-! ## The tenth of ten times a number -/

open Double (FullMantissa scaled)

/-- The greatest number up to which all whole numbers are read back. -/
def wholeBound : Nat := 1801439850948198

theorem fullMantissa_ten : FullMantissa (5 * 2 ^ 50) := ⟨by norm_num, by norm_num⟩

theorem powerOfTen_one :
    powerOfTen 1 = Double.ofFloat (scaled (5 * 2 ^ 50) (-49) fullMantissa_ten) := rfl

theorem tenthOfTenfold_of_scaled {k m : Nat} {e : Int} (j : Nat) (hpos : 0 < n) (hn : n < 2 ^ 53)
    (hk : k = 52 - n.log2) (h : FullMantissa m) (hten : Float.ofNat (10 * n) = scaled m e h)
    (hlow : -1000 ≤ e) (hhigh : e ≤ 971) (hmantissa : m * 2 ^ 53 = n * 2 ^ (k + j) * (5 * 2 ^ 50))
    (hexponent : e - 4 = -(k : Int) - j) :
    tenthOfTenfold n = Double.ofNat n := by
  obtain ⟨hlog, hfull⟩ := Double.fullMantissa_shift hpos hn
  rw [← hk] at hfull
  have hmantissa' : m * 2 ^ 53 = n * 2 ^ k * 2 ^ j * (5 * 2 ^ 50) := by
    rw [hmantissa, Nat.pow_add]
    ring
  have hdiv :
      scaled m e h / scaled (5 * 2 ^ 50) (-49) fullMantissa_ten = scaled (n * 2 ^ k) (-k) hfull :=
    Double.scaled_div h fullMantissa_ten hfull (by omega) (by omega) (by omega) hmantissa'
      (by omega) (by omega)
  have hnan := Double.isNaN_scaled h (by omega) hhigh
  have hnan' :=
    Double.isNaN_scaled fullMantissa_ten (by norm_num : (-1074 : Int) ≤ -49) (by norm_num)
  rw [tenthOfTenfold, powerOfTen_one, Double.ofNat, hten, Double.ofFloat_div hnan hnan', hdiv,
    Double.ofNat, Double.ofNat_of_lt (by omega) hfull hn]

/-- Ten times a number up to the bound is a double, since below `2 ^ 53` every whole number is and
below `2 ^ 54` every even one. So its tenth is the number. -/
theorem tenthOfTenfold_eq (hn : n ≤ wholeBound) : tenthOfTenfold n = Double.ofNat n := by
  have hbound : n ≤ 1801439850948198 := hn
  rcases Nat.eq_zero_or_pos n with rfl | hpos
  · rfl
  have hlog : n.log2 ≤ 52 := (Double.fullMantissa_shift hpos (by omega)).1
  rcases Nat.lt_or_ge (10 * n) (2 ^ 53) with hsmall | hlarge
  · obtain ⟨hlogTen, hfull⟩ := Double.fullMantissa_shift (Nat.mul_pos (by norm_num) hpos) hsmall
    have hgap : (10 * n).log2 < n.log2 + 5 := by
      have hlt : n < 2 ^ (n.log2 + 1) := Nat.lt_log2_self
      rw [Nat.log2_lt (by omega), show n.log2 + 5 = n.log2 + 1 + 4 by omega, Nat.pow_add]
      omega
    have hten := Double.ofNat_of_lt (by omega) hfull hsmall
    have hsum : 52 - n.log2 + (n.log2 + 4 - (10 * n).log2) = 52 - (10 * n).log2 + 4 := by omega
    refine tenthOfTenfold_of_scaled (n.log2 + 4 - (10 * n).log2) hpos (by omega) rfl hfull hten
      (by omega) (by omega)
      ?_ (by omega)
    rw [hsum, Nat.pow_add]
    ring
  · have hfull : FullMantissa (5 * n) := ⟨by omega, by omega⟩
    have hdouble : 10 * n = 5 * n * 2 ^ 1 := by omega
    have hten : Float.ofNat (10 * n) = scaled (5 * n) (1 : Nat) hfull := by
      rw [hdouble]
      exact Double.ofNat_mul_two_pow hfull (by omega)
    have hlogLarge : 49 ≤ n.log2 := (Nat.le_log2 (by omega)).mpr (by omega)
    have hsum : 52 - n.log2 + (n.log2 - 49) = 3 := by omega
    refine tenthOfTenfold_of_scaled (n.log2 - 49) hpos (by omega) rfl hfull hten (by omega)
      (by omega) ?_ (by omega)
    rw [hsum]
    ring

/-! ## Whole numbers are read back -/

theorem readValueWith_digit {nested : UInt8 → Reader Json} {b : UInt8} (hb : isDigit b = true)
    (rest : List UInt8) :
    readValueWith nested (b :: rest) =
      (readNumber false (b :: rest)).map fun r => (.number r.1, r.2) := by
  have hne : ∀ c : Char, isDigit (byte c) = false → b ≠ byte c := by
    rintro c hc rfl
    rw [hb] at hc
    cases hc
  have hspace : skipSpace (b :: rest) = b :: rest := by
    have : isSpace b = false := by
      simp only [isSpace, Bool.or_eq_false_iff, beq_eq_false_iff_ne]
      exact ⟨⟨⟨hne ' ' rfl, hne '\n' rfl⟩, hne '\t' rfl⟩, hne '\r' rfl⟩
    exact List.dropWhile_cons_of_neg (by simp [this])
  rw [readValueWith, hspace]
  dsimp only
  rw [if_neg (hne 'n' rfl), if_neg (hne 't' rfl), if_neg (hne 'f' rfl), if_neg (hne '-' rfl),
    if_pos hb]

theorem encode_whole (cs : List Char) (hcs : ∀ c ∈ cs, c.toNat < 128) (n : Nat) :
    Text.encode (cs ++ (digits n ++ ['.', '0'])) =
      cs.map byte ++ ((digits n).map byte ++ [byte '.', byte '0']) := by
  have hdigits : ∀ c ∈ digits n, c.toNat < 128 := by
    intro c hc
    have := toNat_digit (isDigit_of_mem_digits hc)
    omega
  rw [Text.encode_append, Text.encode_append, Text.encode_ascii hcs, Text.encode_ascii hdigits]
  rfl

/-- The text of a whole number is read as the tenth of ten times the number. -/
theorem read?_write_ofNat (hn : n < 2 ^ 53) :
    read? (realFormat.write (Double.ofNat n)) = .ok (.number (.real (tenthOfTenfold n)))
      ∧ read? (realFormat.write (-Double.ofNat n)) = .ok (.number (.real (-tenthOfTenfold n))) := by
  obtain ⟨hwrite, hwriteNeg⟩ := Decimal.write_ofNat hn
  have hfits : 10 * n < twoTo 64 := by
    change 10 * n < 2 ^ 64
    omega
  obtain ⟨c, cs, hdigits, hc, -⟩ := digits_cons n
  rw [hwrite, hwriteNeg]
  constructor
  · have hnone : ∀ c ∈ ([] : List Char), c.toNat < 128 := fun c hc => nomatch hc
    rw [read?_eq_ok_iff, Text.toList_toUTF8_ofList, ← List.nil_append (_ ++ _),
      encode_whole [] hnone]
    refine ⟨[], ?_, rfl⟩
    have hread := readNumber_whole false hfits
    rw [hdigits, List.map_cons, List.cons_append] at hread ⊢
    change readValueWith _ (byte c :: (cs.map byte ++ _)) = _
    rw [readValueWith_digit (isDigit_byte hc), hread]
    rfl
  · have hminus : ∀ c ∈ ['-'], c.toNat < 128 := by
      intro c hc
      cases List.mem_singleton.mp hc
      decide
    rw [read?_eq_ok_iff, Text.toList_toUTF8_ofList, ← List.singleton_append,
      encode_whole ['-'] hminus]
    refine ⟨[], ?_, rfl⟩
    change (readNumber true ((digits n).map byte ++ [byte '.', byte '0'])).map _ = _
    rw [readNumber_whole true hfits]
    rfl

/-- A whole number is found again exactly if its tenfold, as a double, has the number for its
tenth. -/
theorem readsBack_ofNat_iff (hn : n < 2 ^ 53) :
    ReadsBack (Double.ofNat n) ↔ tenthOfTenfold n = Double.ofNat n := by
  rw [ReadsBack, (read?_write_ofNat hn).1]
  constructor
  · intro h
    injection h with h
    injection h with h
    injection h
  · intro h
    rw [h]

/-- A whole number up to the bound is found again when its text is read, and so is its opposite. -/
theorem readsBack_ofNat (hn : n ≤ wholeBound) :
    ReadsBack (Double.ofNat n) ∧ ReadsBack (-Double.ofNat n) := by
  have hlt : n < 2 ^ 53 := Nat.lt_of_le_of_lt hn (by decide)
  refine ⟨(readsBack_ofNat_iff hlt).mpr (tenthOfTenfold_eq hn), ?_⟩
  rw [ReadsBack, (read?_write_ofNat hlt).2, tenthOfTenfold_eq hn]

/-- The bound cannot be raised. -/
theorem not_readsBack_beyond : ¬ ReadsBack (Double.ofNat (wholeBound + 1)) := by
  rw [readsBack_ofNat_iff (by decide)]
  decide +kernel

end ExtractionBench.Json
