import ExtractionBench.Numeric.Scalar
/-!
# Exact arithmetic

The rationals as scalars: every number is finite, no number is a NaN, the sorting order is `≤`, and
a sum of no numbers is zero.
-/

namespace ExtractionBench

/-- The least and the greatest of no numbers are never asked for by a definition that has checked
its input; both are zero. -/
instance : Scalar Rat where
  decidableLT := inferInstance
  decidableLE := inferInstance
  isFinite _ := true
  isNaN _ := false
  totalLe a b := decide (a ≤ b)
  emptySum := 0
  emptyLeast := 0
  emptyGreatest := 0
  floor := Rat.floor
  ceil := Rat.ceil
  ceilWord q := UInt64.ofNatClamp q.ceil.toNat

namespace Scalar

/-- Every rational is finite. -/
@[simp] theorem isFinite_rat (q : Rat) : isFinite q = true := rfl

/-- Every rational is a number. -/
@[simp] theorem isNaN_rat (q : Rat) : isNaN q = false := rfl

/-- A sum of rationals starts from zero. -/
@[simp] theorem emptySum_rat : (emptySum : Rat) = 0 := rfl

/-- Rationals are sorted by their order. -/
@[simp] theorem totalLe_rat (a b : Rat) : totalLe a b = decide (a ≤ b) := rfl

end Scalar

end ExtractionBench
