import ExtractionBench.Numeric.Power
/-!
# Scalars

Costs, runtimes, ratios and percentages are computed over one interface, `Scalar`. It has two
readings: binary floating-point numbers (see `ExtractionBench.Numeric.Double`), which is what the
programs run on, and exact rationals (see `ExtractionBench.Numeric.Exact`), in which the same
definitions can be read as mathematics. A definition that is written over `Scalar` performs its
operations in one fixed order, so an equation proved for every `Scalar` holds bit for bit of
floating-point numbers.

Whole constants are casts of naturals; a decimal constant is the quotient of two casts
(`Scalar.quotient`), which for a division that rounds to nearest is the number nearest to that
decimal.
-/

namespace ExtractionBench

/-- Numbers that can be added, scaled, compared, sorted and rounded to integers, with room for the
values that floating-point arithmetic has and the rationals have not. -/
class Scalar (α : Type) extends Add α, Sub α, Mul α, Div α, Neg α, NatCast α, BEq α, LT α,
    LE α where
  /-- Strict comparison is decidable. -/
  decidableLT : DecidableLT α
  /-- Comparison is decidable. -/
  decidableLE : DecidableLE α
  /-- Neither infinite nor a NaN. -/
  isFinite : α → Bool
  /-- Not comparable to any number, itself included. -/
  isNaN : α → Bool
  /-- The order that sorting uses. It is total, also where `≤` is not. -/
  totalLe : α → α → Bool
  /-- The number that a sum starts from; a sum of no numbers is this. -/
  emptySum : α
  /-- The least of no numbers. -/
  emptyLeast : α
  /-- The greatest of no numbers. -/
  emptyGreatest : α
  /-- The greatest integer that is not above the number. -/
  floor : α → Int
  /-- The least integer that is not below the number. -/
  ceil : α → Int
  /-- The least integer that is not below the number, in 64 bits: zero for what is negative or a
  NaN, and the greatest word for what is beyond it. -/
  ceilWord : α → UInt64

instance Scalar.instDecidableLT {α : Type} [Scalar α] : DecidableLT α := Scalar.decidableLT

instance Scalar.instDecidableLE {α : Type} [Scalar α] : DecidableLE α := Scalar.decidableLE

/-- Functions of analysis. No law is assumed of them, so what is proved of a definition that uses
them holds under every reading. -/
class Elementary (α : Type) where
  /-- Natural logarithm. -/
  ln : α → α
  /-- Exponential. -/
  exp : α → α
  /-- Square root. -/
  sqrt : α → α

namespace Scalar

variable {α : Type} [Scalar α]

/-- The decimal constant `a / b`. -/
def quotient (a b : Nat) : α := (a : α) / (b : α)

/-- The numbers added up from left to right. -/
def sum (xs : List α) : α := xs.foldl (· + ·) emptySum

/-- The smaller of two numbers. A NaN counts as absent. -/
def least (a b : α) : α :=
  if isNaN a then b else if isNaN b then a else if b < a then b else a

/-- The greater of two numbers. A NaN counts as absent. -/
def greatest (a b : α) : α :=
  if isNaN a then b else if isNaN b then a else if a < b then b else a

/-- The least number of a list, NaNs apart. -/
def minimum (xs : List α) : α :=
  match xs.filter (!isNaN ·) with
  | [] => emptyLeast
  | x :: rest => rest.foldl least x

/-- The greatest number of a list, NaNs apart. -/
def maximum (xs : List α) : α :=
  match xs.filter (!isNaN ·) with
  | [] => emptyGreatest
  | x :: rest => rest.foldl greatest x

/-- The list in ascending order; the order of equal numbers is kept. -/
def sorted (xs : List α) : List α := xs.mergeSort totalLe

end Scalar

end ExtractionBench
