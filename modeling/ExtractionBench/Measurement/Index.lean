import ExtractionBench.Ascending
import ExtractionBench.Measurement.Basic
/-!
# Results by extractor and benchmark

The results of one extractor, looked up by benchmark. An extractor has at most one result for a
benchmark; two are a fault, never a choice.
-/

namespace ExtractionBench.Measurement

variable {α : Type}

/-- The results of one extractor, in the given order. -/
def ofExtractor (extractor : String) (ms : List (Measurement α)) : List (Measurement α) :=
  ms.filter (·.extractor == extractor)

/-- The extractors that have results, in ascending order. -/
def extractors (ms : List (Measurement α)) : List String := Ascending.names (ms.map (·.extractor))

/-- The benchmarks that have results, in ascending order. -/
def benchmarks (ms : List (Measurement α)) : List String := Ascending.names (ms.map (·.name))

/-- The result for a benchmark. -/
def find? (name : String) (ms : List (Measurement α)) : Option (Measurement α) :=
  ms.find? (·.name == name)

/-- Adds results of an extractor one after the other to those `known` already; the first one for a
benchmark that is known is refused, together with the known one. -/
def addEach (extractor : String) :
    (known rest : List (Measurement α)) → Except (Fault α) (List (Measurement α))
  | known, [] => .ok known
  | known, m :: rest =>
    match find? m.name known with
    | some first => .error (.repeated m.name extractor first.file m.file)
    | none => addEach extractor (known ++ [m]) rest

/-- The results of one extractor, no two of them for one benchmark. -/
def index (ms : List (Measurement α)) (extractor : String) :
    Except (Fault α) (List (Measurement α)) :=
  addEach extractor [] (ofExtractor extractor ms)

end ExtractionBench.Measurement
