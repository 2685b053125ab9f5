import Mathlib.Tactic
import ExtractionBench.Proofs.FairShare.Curves

/-!
# Which fault stops the curves

The reference is looked up before anything else. Then the candidates are taken one by one in
ascending order, and of each its results: first they are looked up by benchmark, then they get their
shares in the given order. So of all that may be wrong with some results one fault is told, and it
is known which.
-/

namespace ExtractionBench.FairShare

open Measurement (ofExtractor extractors FirstRepeat)

variable {α : Type} {ms : List (Measurement α)} {reference e : String} {excluded : List String}
  {m : Measurement α} {fault : Fault α}

/-! ## What is looked up -/

/-- An extractor is to be measured: it has results, and it is neither the reference nor excluded. -/
def Candidate (ms : List (Measurement α)) (reference : String) (excluded : List String)
    (e : String) : Prop :=
  (∃ m ∈ ms, m.extractor = e) ∧ e ≠ reference ∧ e ∉ excluded

/-- The candidates in the order in which they are measured. -/
def candidates (ms : List (Measurement α)) (reference : String)
    (excluded : List String) : List String :=
  (extractors ms).filter fun e => e != reference && !excluded.contains e

/-- The extractors that are gone through are the candidates. -/
theorem mem_candidates_iff :
    e ∈ candidates ms reference excluded ↔ Candidate ms reference excluded e := by
  rw [candidates, List.mem_filter, Measurement.mem_extractors_iff]
  simp [Candidate]

/-- Candidates are gone through by name. -/
theorem pairwise_candidates : (candidates ms reference excluded).Pairwise (· < ·) :=
  (Ascending.pairwise_names _).filter _

variable [Scalar α]

/-! ## One result -/

/-- A number is finite and not negative. -/
def IsTime (x : α) : Prop := Scalar.isFinite x = true ∧ ((0 : Nat) : α) ≤ x

/-- A result can be measured: the reference has one for the same benchmark, with a dag cost to
divide by, and the runtime can be replayed. -/
structure Usable (ms : List (Measurement α)) (reference : String) (m : Measurement α) : Prop where
  against : ∃ r ∈ ms, r.extractor = reference ∧ r.name = m.name ∧ (r.dag == ((0 : Nat) : α)) = false
  time : IsTime m.micros

section Result

variable {count : Nat} (hnodup : ((ofExtractor reference ms).map (·.name)).Nodup)

include hnodup

end Result

/-! ## One extractor -/

/-- An extractor has a curve: no benchmark is repeated among its results, and each of them can be
measured. -/
structure Sound (ms : List (Measurement α)) (reference e : String) : Prop where
  nodup : ((ofExtractor e ms).map (·.name)).Nodup
  usable : ∀ m ∈ ofExtractor e ms, Usable ms reference m

section Extractor

variable (hnodup : ((ofExtractor reference ms).map (·.name)).Nodup)

include hnodup

end Extractor

/-! ## All extractors -/

section Curves

variable (hnodup : ((ofExtractor reference ms).map (·.name)).Nodup)

include hnodup

end Curves

end ExtractionBench.FairShare
