import ExtractionBench.Decimal.Binary
import ExtractionBench.Decimal.Rounding
/-!
# The shortest decimal

The shortest decimal of a double is the one with the fewest digits among those that read back as the
double, and of several with as few digits the nearest. A decimal reads back if it lies in the
interval of reals that round to the double; the ends belong to it if the mantissa is even. If any
decimal with a given number of digits lies in the interval, then one of the two neighbours of the
double on that decimal grid does, so only these are tried.
-/

namespace ExtractionBench.Decimal

/-- The decimal `significand · 10 ^ power`. -/
structure Scaled where
  /-- The digits, read as a natural. -/
  significand : Nat
  /-- The power of ten that they are scaled by. -/
  power : Int
  deriving DecidableEq, Repr

/-- Takes zeros off the end of the digits, at most `fuel` of them. -/
def Scaled.dropZeros : (fuel : Nat) → Scaled → Scaled
  | 0, d => d
  | fuel + 1, d =>
    if d.significand ≠ 0 && d.significand % 10 == 0 then
      dropZeros fuel ⟨d.significand / 10, d.power + 1⟩ else d

/-- Zeros at the end are worth a power of ten. -/
theorem Scaled.exists_significand_eq_dropZeros (fuel : Nat) (d : Scaled) :
    ∃ k : Nat, d.significand = (dropZeros fuel d).significand * tenTo k
      ∧ (dropZeros fuel d).power = d.power + k := by
  induction fuel generalizing d with
  | zero => exact ⟨0, by simp [dropZeros], by simp [dropZeros]⟩
  | succ fuel ih =>
    simp only [dropZeros]
    split
    · next h =>
      obtain ⟨k, digits, power⟩ := ih ⟨d.significand / 10, d.power + 1⟩
      simp only [Bool.and_eq_true, beq_iff_eq] at h
      refine ⟨k + 1, ?_, ?_⟩
      · rw [tenTo_succ, ← Nat.mul_assoc, ← digits]
        exact (Nat.div_mul_cancel (Nat.dvd_of_mod_eq_zero h.2)).symm
      · rw [power]
        dsimp only
        omega
    · exact ⟨0, by simp, by simp⟩

/-- The interval of reals that round to `mantissa · 2 ^ exponent`, in quarters of a unit of the
mantissa. Below a power of two the doubles lie twice as dense. -/
structure Interval where
  /-- The lower end. -/
  low : Nat
  /-- The double itself. -/
  mid : Nat
  /-- The upper end. -/
  high : Nat
  /-- Whether the ends round to the double. -/
  closed : Bool

/-- The interval of a positive double. -/
def Interval.of (mantissa : Nat) (exponent : Int) : Interval where
  low := 4 * mantissa - (if mantissa = twoTo 52 && -1074 < exponent then 1 else 2)
  mid := 4 * mantissa
  high := 4 * mantissa + 2
  closed := mantissa % 2 == 0

/-- The decimal of the grid `10 ^ power` that reads back as `mantissa · 2 ^ exponent`, if there is
one. -/
def onGrid (tie : Tie) (mantissa : Nat) (exponent power : Int) : Option Scaled :=
  let i := Interval.of mantissa exponent
  let up := twoTo (exponent - 2).toNat * tenTo (-power).toNat
  let unit := twoTo (2 - exponent).toNat * tenTo power.toNat
  let below := i.mid * up / unit
  let readsBack (n : Nat) : Bool :=
    if i.closed then i.low * up ≤ n * unit && n * unit ≤ i.high * up
    else i.low * up < n * unit && n * unit < i.high * up
  match readsBack below, readsBack (below + 1) with
  | true, true => some ⟨roundDiv tie (i.mid * up) unit, power⟩
  | true, false => some ⟨below, power⟩
  | false, true => some ⟨below + 1, power⟩
  | false, false => none

/-- The shortest decimal of `mantissa · 2 ^ exponent`, without zeros at its end. Seventeen digits
always suffice. -/
def shortest (tie : Tie) (mantissa : Nat) (exponent : Int) : Scaled :=
  if mantissa = 0 then ⟨0, 0⟩
  else
    let top := leadingPower mantissa exponent
    let found := (List.range 17).findSome? fun (n : Nat) => onGrid tie mantissa exponent (top - n)
    (found.getD ⟨0, 0⟩).dropZeros 17

end ExtractionBench.Decimal
