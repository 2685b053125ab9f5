import ExtractionBench.Comparison.Basic
/-!
# Comparisons in words

The text of a comparison: the total runtimes in milliseconds, the geometric means and the quartiles.
-/

namespace ExtractionBench.Comparison

/-- A differing cost in words. -/
def Mismatch.text (m : Mismatch Double) : String :=
  m.name ++ " differs in " ++ m.kind.label ++ " cost: " ++ Decimal.plain.write m.first ++ " "
    ++ Decimal.plain.write m.second

/-- An extractor's total runtime in words. -/
def totalLine (extractor : String) (micros : Double) : String :=
  "cumulative time for " ++ extractor ++ ": " ++ Decimal.fixed 0 (micros / .ofNat 1000) ++ "ms"

/-- A comparison in words; no line end after the last line. -/
def Summary.text (s : Summary Double) : String :=
  "\n".intercalate
    [totalLine s.first s.firstMicros,
     totalLine s.second s.secondMicros,
     "",
     s.first ++ " / " ++ s.second,
     "geo mean",
     "tree: " ++ Decimal.fixed 4 s.meanTree,
     "dag: " ++ Decimal.fixed 4 s.meanDag,
     "micros: " ++ Decimal.fixed 4 s.meanMicros,
     "quantiles",
     "tree:   " ++ s.tree.text,
     "dag:    " ++ s.dag.text,
     "micros: " ++ s.micros.text]

end ExtractionBench.Comparison
