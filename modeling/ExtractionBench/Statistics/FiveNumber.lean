import ExtractionBench.Decimal.Notation
import ExtractionBench.Statistics.Quantile
/-!
# Five-number summaries

The least and the greatest number of a sample and its three quartiles.
-/

namespace ExtractionBench.Statistics

/-- Least number, quartiles, greatest number. -/
structure FiveNumber (α : Type) where
  /-- The least number. -/
  min : α
  /-- The first quartile. -/
  q1 : α
  /-- The second quartile. -/
  median : α
  /-- The third quartile. -/
  q3 : α
  /-- The greatest number. -/
  max : α
  deriving DecidableEq, Repr

/-- The summary of a sample. Four groups have three cut points. -/
def FiveNumber.of {α : Type} [Scalar α] (method : QuantileMethod) (xs : List α) :
    Except (Fault α) (FiveNumber α) :=
  match quantiles method xs 4 with
  | .ok [q1, median, q3] => .ok ⟨Scalar.minimum xs, q1, median, q3, Scalar.maximum xs⟩
  | .ok _ => .error (.noData .quantiles)
  | .error fault => .error fault

/-- The five numbers with four places each. -/
def FiveNumber.text (s : FiveNumber Double) : String :=
  ", ".intercalate ([s.min, s.q1, s.median, s.q3, s.max].map (Decimal.fixed 4))

end ExtractionBench.Statistics
