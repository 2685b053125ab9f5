import ExtractionBench.Measurement.Index
/-!
# Coverage

Which benchmarks an extractor lacks a result for, while another one has it.
-/

namespace ExtractionBench.Measurement

variable {α : Type}

/-- The benchmarks, in ascending order, that some extractor has a result for and this one has
not. -/
def missingFor (extractor : String) (ms : List (Measurement α)) : List String :=
  (benchmarks ms).filter fun name => (find? name (ofExtractor extractor ms)).isNone

/-- The extractors that lack a benchmark, in ascending order, and what they lack. -/
def coverageGaps (ms : List (Measurement α)) : List (String × List String) :=
  ((extractors ms).map fun e => (e, missingFor e ms)).filter fun gap => !gap.2.isEmpty

/-- The warnings about gaps. -/
def coverageWarnings (ms : List (Measurement α)) : List Warning :=
  (coverageGaps ms).map fun gap => .gap gap.1 gap.2.length (gap.2.headD "")

end ExtractionBench.Measurement
