import Mathlib.Tactic
import ExtractionBench.Decimal.Notation

/-!
# The width of numbers with fixed places

A number with a fixed count of places has as many characters as the rounded number has digits, and
one for the point and one for the sign; but at least one digit stands before the point.
-/

namespace ExtractionBench.Decimal

variable {x : Double} {negative : Bool} {mantissa places width : Nat} {exponent : Int}

/-- A number with some places has a point, and at least one digit before it. -/
theorem length_withPoint_parts (n : Nat) (hplaces : 0 < places) :
    (withPoint (Scaled.mk n (-places)).parts.1 (Scaled.mk n (-places)).parts.2).length =
      max (places + 1) (digits n).length + 1 := by
  have hpower : (- -(places : Int)).toNat = places := by omega
  have hzeros : (-(places : Int)).toNat = 0 := by omega
  simp only [Scaled.parts, hpower, hzeros, List.replicate_zero, List.append_nil]
  split
  · rename_i hshort
    have hne : (List.replicate (places - (digits n).length) '0' ++ digits n).isEmpty = false := by
      rw [List.isEmpty_eq_false_iff, ← List.length_pos_iff, List.length_append,
        List.length_replicate]
      omega
    simp only [withPoint, hne, Bool.false_eq_true, if_false, List.length_append, List.length_cons,
      List.length_replicate, List.length_nil]
    omega
  · rename_i hlong
    have hne : ((digits n).drop ((digits n).length - places)).isEmpty = false := by
      rw [List.isEmpty_eq_false_iff, ← List.length_pos_iff, List.length_drop]
      omega
    simp only [withPoint, hne, Bool.false_eq_true, if_false, List.length_append, List.length_cons,
      List.length_take, List.length_drop]
    omega

/-- How many of the characters of a number are its point and its sign. -/
def marks (negative : Bool) : Nat := if negative then 2 else 1

/-- The length of a finite number with some places: its digits, the point and a sign. -/
theorem length_fixed (h : Binary.ofDouble x = .finite negative mantissa exponent)
    (hplaces : 0 < places) :
    (fixed places x).length =
      max (places + 1) (digits (scaleTo mantissa exponent places)).length + marks negative := by
  have hlength := length_withPoint_parts (scaleTo mantissa exponent places) hplaces
  rw [fixed, render, h]
  dsimp only
  rw [signed, String.length_ofList]
  cases negative with
  | false => exact hlength
  | true => exact congrArg (· + 1) hlength

/-- A number with some places has few enough digits for a width. What is no finite number is a short
word. -/
def FitsIn (places width : Nat) (x : Double) : Prop :=
  match Binary.ofDouble x with
  | .finite negative mantissa exponent =>
    scaleTo mantissa exponent places < 10 ^ (width - marks negative)
  | _ => True

/-- A number with some places is no longer than a width exactly if its digits fit in it. -/
theorem length_fixed_le_iff (hplaces : 0 < places) (hwidth : places + 3 ≤ width) :
    (fixed places x).length ≤ width ↔ FitsIn places width x := by
  unfold FitsIn
  split
  · rename_i negative mantissa exponent hx
    have hmarks : marks negative ≤ 2 := by cases negative <;> decide
    rw [length_fixed hx hplaces, ← Nat.length_toDigits_le_iff (by norm_num) (by omega)]
    show _ ↔ (digits _).length ≤ _
    omega
  · rename_i hx
    refine iff_of_true ?_ trivial
    have hword : (fixed places x).length ≤ 4 := by
      rw [fixed, render]
      split
      · decide
      · rename_i negative _
        cases negative <;> decide
      · rename_i h
        exact absurd h (hx _ _ _)
    omega

end ExtractionBench.Decimal
