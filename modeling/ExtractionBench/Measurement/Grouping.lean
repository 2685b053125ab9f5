import ExtractionBench.Ascending
import ExtractionBench.Measurement.Basic
/-!
# Results by directory

The results of each directory, in their order. A directory may be written in several ways; it goes
by the first.
-/

namespace ExtractionBench.Measurement

variable {α : Type}

/-- The directories in ascending path order, each with its results in order. -/
def byDirectory (ms : List (Measurement α)) : List (Path × List (Measurement α)) :=
  ms.foldl (fun groups m =>
    Ascending.upsert Path.before m.directory (fun group => group.getD [] ++ [m]) groups) []

end ExtractionBench.Measurement
