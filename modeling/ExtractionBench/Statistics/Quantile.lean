import ExtractionBench.Fault
import ExtractionBench.Numeric.Scalar
/-!
# Quantiles

The `n - 1` cut points that split a sample into `n` groups of equal probability. A cut point lies
between two neighbouring data points, or beyond the outermost two on the line through them;
`cutPosition` says between which, and how far from the lower one in `n`-ths.
-/

namespace ExtractionBench.Statistics

/-- What the data stand for. -/
inductive QuantileMethod where
  /-- A sample of a larger population; cut points may lie outside the data. -/
  | exclusive
  /-- The whole population; the least and the greatest data point are its ends. -/
  | inclusive
  deriving DecidableEq, Repr

variable {α : Type} [Scalar α]

/-- Where a cut point lies: at the data point `lower`, counted from zero, and `steps / n` of the way
to the next one. -/
structure CutPosition (α : Type) where
  /-- The data point before the cut point. -/
  lower : Nat
  /-- The steps from it, below zero or above `n` for a cut point outside the data. -/
  steps : α
  deriving DecidableEq, Repr

/-- The position of the `i`-th of `n` cut points among `size` data points. By the inclusive method
the steps are what a division leaves over, a count; by the exclusive one they are a difference of
numbers. -/
def cutPosition (method : QuantileMethod) (size n i : Nat) : CutPosition α :=
  match method with
  | .exclusive =>
    let j := max 1 (min (i * (size + 1) / n) (size - 1))
    ⟨j - 1, ((i * (size + 1) : Nat) : α) - ((j * n : Nat) : α)⟩
  | .inclusive =>
    let j := i * (size - 1) / n
    ⟨j, ((i * (size - 1) - j * n : Nat) : α)⟩

theorem lower_lt_size (method : QuantileMethod) {size n i : Nat} (hsize : 2 ≤ size) (hi : i < n) :
    (cutPosition method size n i : CutPosition α).lower + 1 < size := by
  cases method with
  | exclusive =>
    show max 1 (min (i * (size + 1) / n) (size - 1)) - 1 + 1 < size
    omega
  | inclusive =>
    have hlt : i * (size - 1) / n < size - 1 := by
      rw [Nat.div_lt_iff_lt_mul (by omega), Nat.mul_comm (size - 1)]
      exact Nat.mul_lt_mul_of_pos_right hi (by omega)
    show i * (size - 1) / n + 1 < size
    omega

/-- A data point by its index; there is always one at the indices of a position. -/
def point (data : List α) (k : Nat) : α := data.getD k ((0 : Nat) : α)

/-- The number at a position of sorted data, for `n` groups. -/
def interpolate (data : List α) (n : Nat) (p : CutPosition α) : α :=
  (point data p.lower * ((n : α) - p.steps) + point data (p.lower + 1) * p.steps) / (n : α)

/-- The `i`-th of `n` cut points of sorted data. -/
def cutPoint (method : QuantileMethod) (data : List α) (n i : Nat) : α :=
  interpolate data n (cutPosition method data.length n i)

/-- The cut points of a sample into `n` groups, in order. A single data point is its own every
quantile. -/
def quantiles (method : QuantileMethod) (xs : List α) (n : Nat) : Except (Fault α) (List α) :=
  if n = 0 then .error (.noData .groups)
  else
    match Scalar.sorted xs with
    | [] => .error (.noData .quantiles)
    | [x] => .ok (List.replicate (n - 1) x)
    | x :: y :: rest =>
      .ok ((List.range (n - 1)).map fun k => cutPoint method (x :: y :: rest) n (k + 1))

/-- There is a cut point between every two neighbouring groups. -/
theorem length_of_quantiles {method : QuantileMethod} {xs qs : List α} {n : Nat}
    (h : quantiles method xs n = .ok qs) :
    qs.length = n - 1 := by
  simp only [quantiles] at h
  split at h
  · cases h
  · split at h
    · cases h
    · cases h
      simp
    · cases h
      simp

end ExtractionBench.Statistics
