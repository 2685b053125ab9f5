/-!
# Rounding a quotient

A quotient of naturals rounded to the nearest natural, with a choice for the quotients that lie
halfway.
-/

namespace ExtractionBench.Decimal

/-- Where a quotient halfway between two naturals goes. -/
inductive Tie where
  /-- To the even one of the two. -/
  | toEven
  /-- To the greater one. -/
  | up
  deriving DecidableEq, Repr

/-- Rounds `num / den` to the nearest natural. -/
def roundDiv (tie : Tie) (num den : Nat) : Nat :=
  let below := num / den
  let twice := 2 * (num % den)
  if twice < den then below
  else if den < twice then below + 1
  else match tie with
    | .toEven => below + below % 2
    | .up => below + 1

/-- A quotient that is a natural stays. -/
theorem roundDiv_mul_self (tie : Tie) (n : Nat) {den : Nat} (pos : 0 < den) :
    roundDiv tie (n * den) den = n := by
  simp [roundDiv, pos, Nat.mul_div_cancel n pos]

/-- The rounded quotient is at most half a unit away. -/
theorem roundDiv_near (tie : Tie) (num : Nat) {den : Nat} (pos : 0 < den) :
    2 * num ≤ 2 * (roundDiv tie num den * den) + den
      ∧ 2 * (roundDiv tie num den * den) ≤ 2 * num + den := by
  have split : num / den * den + num % den = num := Nat.div_add_mod' num den
  have small : num % den < den := Nat.mod_lt num pos
  have next : (num / den + 1) * den = num / den * den + den := Nat.succ_mul _ _
  simp only [roundDiv]
  split
  · omega
  · split
    · omega
    · cases tie with
      | up =>
        dsimp only
        omega
      | toEven =>
        rcases Nat.mod_two_eq_zero_or_one (num / den) with even | odd
        · simp only [even, Nat.add_zero]
          omega
        · simp only [odd]
          omega

end ExtractionBench.Decimal
