import ExtractionBench.Numeric.Double
/-!
# Floating-point numbers as integers

A double is a sign, a natural mantissa and a power of two, or one of the special values. Every
printed form is computed from these integers, without rounding on the way.
-/

namespace ExtractionBench.Decimal

/-- A double, taken apart. -/
inductive Binary where
  /-- Not a number. -/
  | nan
  /-- An infinity. -/
  | infinite (negative : Bool)
  /-- The number `mantissa · 2 ^ exponent`, below zero if `negative`. The mantissa has at most 53
  bits, and fewer only for the least exponent, `-1074`. -/
  | finite (negative : Bool) (mantissa : Nat) (exponent : Int)
  deriving DecidableEq, Repr

/-- Takes a double apart. -/
def Binary.ofDouble (x : Double) : Binary :=
  let bits := x.bits.toNat
  let negative := twoTo 63 ≤ bits
  let scale : Nat := bits / twoTo 52 % twoTo 11
  let fraction : Nat := bits % twoTo 52
  if scale = twoTo 11 - 1 then
    if fraction = 0 then .infinite negative else .nan
  else if scale = 0 then .finite negative fraction (-1074)
  else .finite negative (twoTo 52 + fraction) ((scale : Int) - 1075)

/-- The exponent `k` of the power of ten at or below `mantissa · 2 ^ exponent`, so that the number
has its first digit at `10 ^ k`; zero for zero. The binary logarithm gives it up to one, a
comparison decides. -/
def leadingPower (mantissa : Nat) (exponent : Int) : Int :=
  if mantissa = 0 then 0
  else
    let guess := ((mantissa.log2 + exponent) * 30103).fdiv 100000
    let next := guess + 1
    if tenTo next.toNat * twoTo (-exponent).toNat ≤
      mantissa * twoTo exponent.toNat * tenTo (-next).toNat then next
    else guess

end ExtractionBench.Decimal
