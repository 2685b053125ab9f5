import Mathlib
import ExtractionBench.Decimal.Binary
import ExtractionBench.Numeric.Double

/-!
# Whole numbers as doubles

A double above zero that is not too small is a mantissa of 53 bits and a power of two. Whole numbers
below `2 ^ 53` are doubles of this form, and a product or a quotient that has this form is not
rounded.
-/

namespace ExtractionBench.Double

open Float.Model (Format UnpackedFloat totalExponent)
open Float.Model.UnpackedFloat
open Decimal (Binary)

/-- The mantissa has all its 53 bits. -/
structure FullMantissa (m : Nat) : Prop where
  low : 2 ^ 52 ≤ m
  high : m < 2 ^ 53

variable {m : Nat} {e : Int}

theorem FullMantissa.pos (h : FullMantissa m) : 0 < m := Nat.lt_of_lt_of_le (by norm_num) h.low

theorem log2_mul_two_pow {n : Nat} (hn : n ≠ 0) (j : Nat) : (n * 2 ^ j).log2 = n.log2 + j := by
  have hne : n * 2 ^ j ≠ 0 := Nat.mul_ne_zero hn (Nat.ne_of_gt (Nat.two_pow_pos j))
  have hlow : 2 ^ n.log2 ≤ n := Nat.log2_self_le hn
  have hhigh : n < 2 ^ (n.log2 + 1) := Nat.lt_log2_self
  rw [Nat.log2_eq_iff hne, Nat.pow_add, Nat.add_right_comm, Nat.pow_add]
  exact ⟨Nat.mul_le_mul_right _ hlow, Nat.mul_lt_mul_of_pos_right hhigh (Nat.two_pow_pos j)⟩

theorem FullMantissa.log2_eq (h : FullMantissa m) : m.log2 = 52 :=
  (Nat.log2_eq_iff (Nat.ne_of_gt h.pos)).mpr ⟨h.low, h.high⟩

/-! ## Rounding of what is exact -/

/-- Zeros at the end of a mantissa are dropped without rounding. -/
theorem shiftRight_exact (m j : Nat) :
    (⟨m * 2 ^ j, false, false⟩ : ExtendedMantissa) >>> j = ⟨m, false, false⟩ := by
  induction j generalizing m with
  | zero => rw [Nat.pow_zero, Nat.mul_one]; rfl
  | succ j ih =>
    have hdouble : m * 2 ^ (j + 1) = (2 * m) * 2 ^ j := by ring
    have hstep : ∀ em : ExtendedMantissa, em >>> (j + 1) = (em >>> j).shiftRightOne := fun _ => rfl
    rw [hstep, hdouble, ih]
    simp [ExtendedMantissa.shiftRightOne]

/-- A full mantissa with some zeros behind it is brought back to its own exponent. -/
theorem FullMantissa.shiftToTargetExponent (h : FullMantissa m) (he : -1074 ≤ e) (j : Nat) :
    shiftToTargetExponent Format.binary64 (m * 2 ^ j) (e - j) .exact = (⟨m, false, false⟩, e) := by
  have htarget : Format.binary64.targetExponent (totalExponent (m * 2 ^ j) (e - j)) = e := by
    rw [totalExponent, log2_mul_two_pow (Nat.ne_of_gt h.pos), h.log2_eq, Format.targetExponent]
    change max ((52 + j : Nat) + 1 + (e - j) - 53) (-1074 : Int) = e
    omega
  have hshift : (e - (e - (j : Int))).toNat = j := by omega
  have hexponent : e - (j : Int) + j = e := by omega
  simp only [UnpackedFloat.shiftToTargetExponent, htarget, shiftToExponent, hshift,
    ExtendedMantissa.ofMantissaAndAccuracy, shiftRight_exact, hexponent]

/-- A full mantissa is not rounded, however many zeros stand behind it. -/
theorem FullMantissa.roundWithAccuracy (h : FullMantissa m) (he : -1074 ≤ e) (j : Nat)
    (sign : Sign) :
    roundWithAccuracy Format.binary64 sign (m * 2 ^ j) (e - j) .exact = .finite sign m e h.pos := by
  have hagain := h.shiftToTargetExponent he 0
  rw [Nat.pow_zero, Nat.mul_one, Nat.cast_zero, Int.sub_zero] at hagain
  have hne : m ≠ 0 := Nat.ne_of_gt h.pos
  have hrounded : (⟨m, false, false⟩ : ExtendedMantissa).roundedMantissa = m := rfl
  simp only [UnpackedFloat.roundWithAccuracy, h.shiftToTargetExponent he j, hrounded, hagain,
    dif_neg hne]

/-! ## Bits -/

theorem toNat_append_one (v : BitVec 52) : (1#1 ++ v).toNat = 2 ^ 52 + v.toNat := by
  rw [BitVec.toNat_append, ← Nat.shiftLeft_add_eq_or_of_lt v.isLt]
  rfl

/-- A full mantissa is packed as the bits behind its leading one, and its exponent with a bias. -/
theorem FullMantissa.pack_eq (h : FullMantissa m) (hlow : -1074 ≤ e) (hhigh : e ≤ 971)
    (sign : Sign) :
    UnpackedFloat.pack Format.binary64 (.finite sign m e h.pos)
      = packComponents Format.binary64 sign (BitVec.ofNat 11 (e + 1075).toNat)
        (BitVec.ofNat 52 m) := by
  have hbias : (e + (Format.binary64.exponentBias : Int) +
      (Format.binary64.mantissaBitsWithoutImplicit : Int)).toNat
      = (e + 1075).toNat := by
    change (e + 1023 + 52).toNat = _
    omega
  have hrange : ¬ 2 ^ Format.binary64.exponentBits ≤ (e + 1075).toNat + 1 := by
    change ¬ 2048 ≤ _
    omega
  have hbits : m.log2 + 1 = Format.binary64.mantissaBits := by
    rw [h.log2_eq]
    rfl
  simp only [UnpackedFloat.pack, hbias, if_neg hrange, if_pos hbits]

/-- A mantissa of 53 bits and an exponent in range are found again in the bits. -/
theorem FullMantissa.unpack_pack (h : FullMantissa m) (hlow : -1074 ≤ e) (hhigh : e ≤ 971)
    (sign : Sign) :
    (Float.Model.pack (.finite sign m e h.pos)).unpack = .finite sign m e h.pos := by
  have hbiased : (BitVec.ofNat 11 (e + 1075).toNat).toNat = (e + 1075).toNat := by
    rw [BitVec.toNat_ofNat]
    exact Nat.mod_eq_of_lt (by omega)
  have hne :
      ∀ v : BitVec 11, v.toNat ≠ (e + 1075).toNat → BitVec.ofNat 11 (e + 1075).toNat ≠ v := by
    rintro v hv rfl
    exact hv hbiased
  have hmantissa : (1#1 ++ BitVec.ofNat 52 m).toNat = m := by
    have := h.low
    have := h.high
    rw [toNat_append_one, BitVec.toNat_ofNat]
    omega
  have hones : BitVec.ofNat 11 (e + 1075).toNat ≠ -1#11 :=
    hne _ (by rw [show (-1#11).toNat = 2047 from rfl]; omega)
  have hzero : BitVec.ofNat 11 (e + 1075).toNat ≠ 0#11 :=
    hne _ (by rw [show (0#11).toNat = 0 from rfl]; omega)
  change UnpackedFloat.unpack Format.binary64
    (UnpackedFloat.pack Format.binary64 (.finite sign m e h.pos)) = _
  rw [h.pack_eq hlow hhigh, UnpackedFloat.unpack]
  simp only [unpackExponent_packComponents, unpackMantissa_packComponents,
    unpackSign_packComponents, Sign.ofBitVec_toBitVec, hbiased, hmantissa]
  rw [if_neg hones, if_neg hzero]
  congr 1
  change ((e + 1075).toNat : Int) - (1023 + 52) = e
  omega

/-! ## Floating-point numbers with a full mantissa -/

/-- A float is kept by its bits. -/
theorem toFloat_ofFloat (x : Float) : (ofFloat x).toFloat = x := by
  obtain ⟨⟨bits, hvalid⟩⟩ := x
  have hbits :
      UnpackedFloat.pack Format.binary64 (UnpackedFloat.unpack Format.binary64 bits.toBitVec)
      = bits.toBitVec :=
    pack_unpack_of_valid hvalid
  have hmodel : Float.Model.ofBits bits = ⟨bits, hvalid⟩ := by
    rw [Float.Model.ofBits, Float.Model.pack, Float.Model.mk.injEq]
    exact UInt64.toBitVec_inj.mp hbits
  exact congrArg Float.ofModel hmodel

/-- The floating-point number `m · 2 ^ e`. -/
def scaled (m : Nat) (e : Int) (h : FullMantissa m) : Float :=
  ⟨Float.Model.pack (.finite .positive m e h.pos)⟩

theorem isNaN_scaled (h : FullMantissa m) (hlow : -1074 ≤ e) (hhigh : e ≤ 971) :
    (scaled m e h).isNaN = false := by
  change (Float.Model.pack (.finite .positive m e h.pos)).unpack.isNaN = false
  rw [h.unpack_pack hlow hhigh]
  rfl

theorem fullMantissa_one : FullMantissa (2 ^ 52) := ⟨le_refl _, by norm_num⟩

theorem scaled_one :
    Float.exactlyRepresentablePowersOfTen[0] = scaled (2 ^ 52) (-52) fullMantissa_one := rfl

/-- A whole number below `2 ^ 53`, with zeros behind its binary digits until there are 53. -/
theorem fullMantissa_shift {n : Nat} (hpos : 0 < n) (hn : n < 2 ^ 53) :
    n.log2 ≤ 52 ∧ FullMantissa (n * 2 ^ (52 - n.log2)) := by
  have hne : n ≠ 0 := Nat.ne_of_gt hpos
  have hlog : n.log2 < 53 := (Nat.log2_lt hne).mpr hn
  have hlow : 2 ^ n.log2 ≤ n := Nat.log2_self_le hne
  have hhigh : n < 2 ^ (n.log2 + 1) := Nat.lt_log2_self
  refine ⟨by omega, ?_, ?_⟩
  · calc 2 ^ 52 = 2 ^ n.log2 * 2 ^ (52 - n.log2) := by rw [← Nat.pow_add]; congr 1; omega
      _ ≤ n * 2 ^ (52 - n.log2) := Nat.mul_le_mul_right _ hlow
  · calc n * 2 ^ (52 - n.log2) < 2 ^ (n.log2 + 1) * 2 ^ (52 - n.log2) :=
        Nat.mul_lt_mul_of_pos_right hhigh (Nat.two_pow_pos _)
      _ = 2 ^ 53 := by rw [← Nat.pow_add]; congr 1; omega

/-- A whole number with a full mantissa is rounded to itself. -/
theorem round_nat {n k : Nat} (hk : k ≤ 52) (h : FullMantissa (n * 2 ^ k)) :
    UnpackedFloat.round Format.binary64 .positive n 0 =
      .finite .positive (n * 2 ^ k) (-k) h.pos := by
  have hne : n ≠ 0 := by
    rintro rfl
    exact absurd h.pos (by simp)
  have hlog : n.log2 + k = 52 := by rw [← log2_mul_two_pow hne, h.log2_eq]
  have htarget : Format.binary64.targetExponent (totalExponent n 0) = -k := by
    rw [totalExponent, Format.targetExponent]
    change max ((n.log2 : Int) + 1 + 0 - 53) (-1074) = -k
    omega
  have hshift : (0 - -(k : Int)).toNat = k := by omega
  have hround := h.roundWithAccuracy (by omega : (-1074 : Int) ≤ -k) 0 .positive
  rw [Nat.pow_zero, Nat.mul_one, Nat.cast_zero, Int.sub_zero] at hround
  rw [UnpackedFloat.round, htarget, decreaseExponent, hshift, Nat.shiftLeft_eq]
  change UnpackedFloat.roundWithAccuracy Format.binary64 .positive (n * 2 ^ k) (0 - k) .exact = _
  rw [Int.zero_sub, hround]

/-- A whole number below the precision is converted from a word without rounding. -/
theorem toFloat_toUInt64 {n k : Nat} (hk : k ≤ 52) (h : FullMantissa (n * 2 ^ k))
    (hn : n < 2 ^ 53) :
    n.toUInt64.toFloat = scaled (n * 2 ^ k) (-k) h := by
  have hpos : 0 < n := Nat.pos_of_mul_pos_right h.pos
  have hvalue : n.toUInt64.toNat = n := Nat.mod_eq_of_lt (Nat.lt_trans hn (by norm_num))
  have hcompare : compare (n : Int) 0 = .gt := Int.compare_eq_gt.mpr (by omega)
  have hround : UnpackedFloat.ofUInt64 Format.binary64 n.toUInt64 =
      .finite .positive (n * 2 ^ k) (-k) h.pos := by
    rw [UnpackedFloat.ofUInt64, hvalue, UnpackedFloat.ofNat, UnpackedFloat.ofInt,
      UnpackedFloat.normalize, hcompare]
    exact round_nat hk h
  exact congrArg (fun u => Float.ofModel (Float.Model.pack u)) hround

/-- A whole number below the precision is the float of that value. -/
theorem ofNat_of_lt {n k : Nat} (hk : k ≤ 52) (h : FullMantissa (n * 2 ^ k)) (hn : n < 2 ^ 53) :
    Float.ofNat n = scaled (n * 2 ^ k) (-k) h := by
  have hdef : Float.ofNat n = n.toUInt64.toFloat * Float.exactlyRepresentablePowersOfTen[0] :=
    dif_pos (And.intro hn (Nat.zero_le 22))
  have hmul : UnpackedFloat.mul Format.binary64 (.finite .positive (n * 2 ^ k) (-k) h.pos)
      (.finite .positive (2 ^ 52) (-52) fullMantissa_one.pos) =
        .finite .positive (n * 2 ^ k) (-k) h.pos :=
    h.roundWithAccuracy (by omega) 52 .positive
  rw [hdef, toFloat_toUInt64 hk h hn, scaled_one]
  change Float.ofModel (Float.Model.pack (UnpackedFloat.mul Format.binary64
    (Float.Model.pack _).unpack (Float.Model.pack _).unpack)) = _
  rw [h.unpack_pack (by omega) (by omega), fullMantissa_one.unpack_pack (by omega) (by omega), hmul]
  rfl

theorem mul_finite {format : Format} (s s' : Sign) (m m' : Nat) (e e' : Int) (h : 0 < m)
    (h' : 0 < m') :
    UnpackedFloat.mul format (.finite s m e h) (.finite s' m' e' h')
      = UnpackedFloat.roundWithAccuracy format (s * s') (m * m') (e + e') .exact := rfl

/-- A whole number whose binary digits behind the first 53 are zeros is the float of that value. -/
theorem ofNat_mul_two_pow {a : Nat} (h : FullMantissa m) (hn : 2 ^ 53 ≤ m * 2 ^ a) :
    Float.ofNat (m * 2 ^ a) = scaled m a h := by
  have hdef : Float.ofNat (m * 2 ^ a) = ⟨Float.Model.ofScientific (m * 2 ^ a) 0⟩ :=
    dif_neg fun hsmall => Nat.not_lt_of_le hn hsmall.1
  have hne : m * 2 ^ a ≠ 0 := Nat.ne_of_gt (Nat.lt_of_lt_of_le (by norm_num) hn)
  have hround := h.roundWithAccuracy (by omega : (-1074 : Int) ≤ a) (a + 53) .positive
  have hfits : ¬ (0 : Int) < -(2 ^ Format.binary64.exponentBits + (m * 2 ^ a).log2) := by
    change ¬ (0 : Int) < -(2048 + _)
    omega
  have hmantissa :
      (m * 2 ^ a) <<< Format.binary64.mantissaBits * 10 ^ (0 : Int).toNat = m * 2 ^ (a + 53) := by
    rw [Nat.shiftLeft_eq, Nat.pow_add, Int.toNat_zero, Nat.pow_zero, Nat.mul_one, Nat.mul_assoc]
    rfl
  have hexponent : -(Format.binary64.mantissaBits : Int) + 0 = (a : Int) - (a + 53 : Nat) := by
    change (-53 : Int) + 0 = _
    omega
  have hscientific :
      UnpackedFloat.ofScientific Format.binary64 (m * 2 ^ a) 0 = .finite .positive m a h.pos := by
    rw [UnpackedFloat.ofScientific, dif_neg hne, if_neg (by decide), if_neg hfits,
      if_pos (le_refl 0), mul_finite, hmantissa, hexponent]
    exact hround
  rw [hdef, Float.Model.ofScientific, hscientific]
  rfl

/-- A quotient that has a mantissa of 53 bits is not rounded. -/
theorem scaled_div {m₁ m₂ j : Nat} {e₁ e₂ : Int} (h₁ : FullMantissa m₁) (h₂ : FullMantissa m₂)
    (h : FullMantissa m) (hr₁ : -1074 ≤ e₁ ∧ e₁ ≤ 971) (hr₂ : -1074 ≤ e₂ ∧ e₂ ≤ 971)
    (he : -1074 ≤ e) (hmantissa : m₁ * 2 ^ 53 = m * 2 ^ j * m₂) (hlow : -1021 ≤ e₁ - e₂)
    (hexponent : e₁ - e₂ - 53 = e - j) :
    scaled m₁ e₁ h₁ / scaled m₂ e₂ h₂ = scaled m e h := by
  have htarget :
      min (e₁ - e₂) (Format.binary64.targetExponent (totalExponent m₁ e₁ - totalExponent m₂ e₂))
      = e - j := by
    rw [totalExponent, totalExponent, h₁.log2_eq, h₂.log2_eq, Format.targetExponent]
    change min (e₁ - e₂)
      (max (((52 : Nat) : Int) + 1 + e₁ - (((52 : Nat) : Int) + 1 + e₂) - 53) (-1074)) = _
    omega
  have hshift : (e₁ - e₂ - (e - j)).toNat = 53 := by omega
  have hquotient : m₁ <<< 53 / m₂ = m * 2 ^ j := by
    rw [Nat.shiftLeft_eq, hmantissa, Nat.mul_div_cancel _ h₂.pos]
  have hremainder : m₁ <<< 53 % m₂ = 0 := by rw [Nat.shiftLeft_eq, hmantissa, Nat.mul_mod_left]
  have hcore : divCore Format.binary64 m₁ e₁ m₂ e₂ = (m * 2 ^ j, e - j, .exact) := by
    simp only [divCore, htarget, hshift, hquotient, hremainder, accuracyOfFraction, if_pos]
  have hdiv : UnpackedFloat.div Format.binary64 (.finite .positive m₁ e₁ h₁.pos)
      (.finite .positive m₂ e₂ h₂.pos)
      = .finite .positive m e h.pos := by
    rw [UnpackedFloat.div, hcore]
    exact h.roundWithAccuracy he j .positive
  change Float.ofModel (Float.Model.pack (UnpackedFloat.div Format.binary64
    (Float.Model.pack _).unpack (Float.Model.pack _).unpack)) = _
  rw [h₁.unpack_pack hr₁.1 hr₁.2, h₂.unpack_pack hr₂.1 hr₂.2, hdiv]
  rfl

/-- Numbers are divided as floats are. -/
theorem ofFloat_div {x y : Float} (hx : x.isNaN = false) (hy : y.isNaN = false) :
    ofFloat x / ofFloat y = ofFloat (x / y) := by
  change zipWith (· / ·) (ofFloat x) (ofFloat y) = _
  rw [zipWith, isNaN, isNaN, toFloat_ofFloat, toFloat_ofFloat, hx, hy]
  rfl

/-! ## Taken apart -/

/-- The bits of a positive number are its exponent and its fraction, one behind the other. -/
theorem toNat_packComponents (exponent : BitVec 11) (fraction : BitVec 52) :
    (packComponents Format.binary64 .positive exponent fraction).toNat =
      exponent.toNat * 2 ^ 52 + fraction.toNat := by
  have hsign : (0#1 ++ exponent).toNat = exponent.toNat := by
    rw [BitVec.toNat_append]
    exact Nat.zero_or _
  change (0#1 ++ exponent ++ fraction).toNat = _
  rw [BitVec.toNat_append, ← Nat.shiftLeft_add_eq_or_of_lt fraction.isLt, hsign, Nat.shiftLeft_eq]

theorem bits_scaled (h : FullMantissa m) (hlow : -1074 ≤ e) (hhigh : e ≤ 971) :
    (ofFloat (scaled m e h)).bits.toNat = (e + 1075).toNat * 2 ^ 52 + (m - 2 ^ 52) := by
  change (UnpackedFloat.pack Format.binary64 (.finite .positive m e h.pos)).toNat = _
  rw [h.pack_eq hlow hhigh, toNat_packComponents, BitVec.toNat_ofNat, BitVec.toNat_ofNat]
  have := h.low
  have := h.high
  omega

/-- A full mantissa and its exponent are found again in the bits. -/
theorem ofDouble_scaled (h : FullMantissa m) (hlow : -1074 ≤ e) (hhigh : e ≤ 971) :
    Binary.ofDouble (ofFloat (scaled m e h)) = .finite false m e := by
  have hbits := bits_scaled h hlow hhigh
  have hm := h.low
  have hm' := h.high
  have h63 : twoTo 63 = 2 ^ 63 := rfl
  have h52 : twoTo 52 = 2 ^ 52 := rfl
  have h11 : twoTo 11 = 2 ^ 11 := rfl
  have hpositive : ¬ twoTo 63 ≤ (ofFloat (scaled m e h)).bits.toNat := by
    rw [hbits, h63]
    omega
  have hscale : (ofFloat (scaled m e h)).bits.toNat / twoTo 52 % twoTo 11 = (e + 1075).toNat := by
    rw [hbits, h52, h11]
    omega
  have hfraction : (ofFloat (scaled m e h)).bits.toNat % twoTo 52 = m - 2 ^ 52 := by
    rw [hbits, h52]
    omega
  have hmantissa : twoTo 52 + (m - 2 ^ 52) = m := by
    rw [h52]
    omega
  have hinfinite : (e + 1075).toNat ≠ twoTo 11 - 1 := by
    rw [h11]
    omega
  have hsmall : (e + 1075).toNat ≠ 0 := by omega
  have hexponent : ((e + 1075).toNat : Int) - 1075 = e := by omega
  simp only [Binary.ofDouble, hscale, hfraction, hmantissa, hexponent, if_neg hinfinite,
    if_neg hsmall, decide_eq_false hpositive]

/-- The opposite of a finite number differs from it in its sign alone. -/
theorem ofDouble_neg {x : Double} {negative : Bool} (h : Binary.ofDouble x = .finite negative m e) :
    Binary.ofDouble (-x) = .finite (!negative) m e := by
  have hneg : (-x).bits.toNat = x.bits.toNat ^^^ 2 ^ 63 := rfl
  have hlt : x.bits.toNat < 2 ^ 64 := x.bits.toNat_lt
  have hlow : (-x).bits.toNat % 2 ^ 63 = x.bits.toNat % 2 ^ 63 := by
    rw [hneg, Nat.xor_mod_two_pow, Nat.mod_self, Nat.xor_zero]
  have hhigh : (-x).bits.toNat / 2 ^ 63 = x.bits.toNat / 2 ^ 63 ^^^ 1 := by
    rw [hneg, Nat.xor_div_two_pow]
    rfl
  have hsign : 2 ^ 63 ≤ (-x).bits.toNat ↔ ¬ 2 ^ 63 ≤ x.bits.toNat := by
    have hbit : x.bits.toNat / 2 ^ 63 = 0 ∨ x.bits.toNat / 2 ^ 63 = 1 := by omega
    rcases hbit with hbit | hbit
    · rw [hbit, show 0 ^^^ 1 = 1 from rfl] at hhigh
      omega
    · rw [hbit, show 1 ^^^ 1 = 0 from rfl] at hhigh
      omega
  have hnegative : decide (twoTo 63 ≤ (-x).bits.toNat) = !decide (twoTo 63 ≤ x.bits.toNat) := by
    rw [← decide_not]
    exact decide_eq_decide.mpr hsign
  have hscale : (-x).bits.toNat / twoTo 52 % twoTo 11 = x.bits.toNat / twoTo 52 % twoTo 11 := by
    change (-x).bits.toNat / 2 ^ 52 % 2 ^ 11 = x.bits.toNat / 2 ^ 52 % 2 ^ 11
    omega
  have hfraction : (-x).bits.toNat % twoTo 52 = x.bits.toNat % twoTo 52 := by
    change (-x).bits.toNat % 2 ^ 52 = x.bits.toNat % 2 ^ 52
    omega
  simp only [Binary.ofDouble] at h ⊢
  rw [hnegative, hscale, hfraction]
  split at h
  · split at h <;> cases h
  · next hinfinite =>
    rw [if_neg hinfinite]
    split at h
    · next hsmall =>
      cases h
      rw [if_pos hsmall]
    · next hsmall =>
      cases h
      rw [if_neg hsmall]

end ExtractionBench.Double
