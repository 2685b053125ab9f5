import Mathlib.Tactic
import ExtractionBench.Proofs.FairShare.Accepted
import ExtractionBench.Proofs.Measurement.Index

/-!
# What curves are drawn from

The curves look up the results of the reference and then of each candidate by benchmark. So where
there are curves, none of these extractors has two results for one benchmark. What else can stop
them is told of one result: a runtime that is out of range, for one, is the runtime of a candidate's
result.
-/

namespace ExtractionBench.FairShare

open Measurement (ofExtractor extractors)

section Lookups

variable {α : Type} {ms : List (Measurement α)} {name : String}

theorem reference_eq_ok_iff {r : Reference α} :
    Reference.of ms name = .ok r ↔
      ((ofExtractor name ms).map (·.name)).Nodup ∧ r = ⟨name, ofExtractor name ms⟩ := by
  unfold Reference.of
  rw [map_eq_ok_iff]
  constructor
  · rintro ⟨_, hindex, rfl⟩
    obtain ⟨hnodup, rfl⟩ := Measurement.index_eq_ok_iff.mp hindex
    exact ⟨hnodup, rfl⟩
  · rintro ⟨hnodup, rfl⟩
    exact ⟨_, Measurement.index_eq_ok_iff.mpr ⟨hnodup, rfl⟩, rfl⟩

variable [Scalar α] {r : Reference α} {excluded : List String} {e : String}

theorem curveOf_eq_ok_iff {c : Curve α} :
    curveOf r ms e = .ok c ↔
      ((ofExtractor e ms).map (·.name)).Nodup ∧
        ∃ points, curvePoints r (ofExtractor e ms) = .ok points ∧ c = ⟨e, points⟩ := by
  unfold curveOf
  simp only [bind_eq_ok_iff, Measurement.index_eq_ok_iff]
  constructor
  · rintro ⟨_, ⟨hnodup, -⟩, points, hpoints, hcurve⟩
    cases hcurve
    exact ⟨hnodup, points, hpoints, rfl⟩
  · rintro ⟨hnodup, points, hpoints, rfl⟩
    exact ⟨_, ⟨hnodup, rfl⟩, points, hpoints, rfl⟩

/-- With its reference looked up there is a curve for every candidate, or none at all if the
reference has no results. -/
theorem curves_of_reference (h : Reference.of ms name = .ok r) :
    curves ms name excluded =
      if r.isEmpty then .ok []
      else ((extractors ms).filter fun e => e != name && !excluded.contains e).mapM
        (curveOf r ms) := by
  unfold curves
  rw [h]
  rfl

/-- Where there are curves no benchmark is repeated for the reference. -/
theorem nodup_reference_of_curves {cs : List (Curve α)} (h : curves ms name excluded = .ok cs) :
    ((ofExtractor name ms).map (·.name)).Nodup := by
  unfold curves at h
  obtain ⟨r, hr, -⟩ := bind_eq_ok_iff.mp h
  exact (reference_eq_ok_iff.mp hr).1

/-- Where there are curves and the reference has results, no benchmark is repeated for an extractor
that is not excluded. -/
theorem nodup_of_curves {cs : List (Curve α)} (h : curves ms name excluded = .ok cs)
    (hname : name ∈ extractors ms) (he : e ∈ extractors ms) (hexcluded : e ∉ excluded) :
    ((ofExtractor e ms).map (·.name)).Nodup := by
  have hnodup := nodup_reference_of_curves h
  by_cases heq : e = name
  · exact heq ▸ hnodup
  · have hne : (Reference.isEmpty ⟨name, ofExtractor name ms⟩ : Bool) = false := by
      obtain ⟨m, hm, hextractor⟩ := Measurement.mem_extractors_iff.mp hname
      exact List.isEmpty_eq_false_iff.mpr
        (List.ne_nil_of_mem (Measurement.mem_ofExtractor.mpr ⟨hm, hextractor⟩))
    rw [curves_of_reference (reference_eq_ok_iff.mpr ⟨hnodup, rfl⟩), hne] at h
    have hcandidate : e ∈ (extractors ms).filter fun e => e != name && !excluded.contains e := by
      simp [he, heq, hexcluded]
    obtain ⟨c, hc⟩ := exists_mapM_eq_ok_iff.mp ⟨cs, h⟩ e hcandidate
    exact (curveOf_eq_ok_iff.mp hc).1

end Lookups

/-! ## Runtimes out of range -/

section OutOfRange

variable {α : Type} {ms candidates : List (Measurement α)} {path : Path}
  {name benchmark extractor : String}
  {quantity : Quantity} {value : α}

theorem index_ne_outOfRange :
    Measurement.index ms name ≠ .error (.outOfRange path benchmark extractor quantity value) := by
  intro h
  obtain ⟨_, _, _, _, hfault⟩ := Measurement.exists_repeated_of_index h
  cases hfault

variable [Scalar α] {reference : Reference α}

theorem not_isRuntime_of_saved {count : Nat} {m : Measurement α}
    (h : saved reference count m = .error (.outOfRange path benchmark extractor quantity value)) :
    Measurement.isRuntime m.micros = false := by
  unfold saved at h
  cases hd : reference.dag? m.name with
  | none =>
    rw [hd] at h
    cases h
  | some d =>
    rw [hd] at h
    by_cases ht : Measurement.isRuntime m.micros = true
    · by_cases hz : (d == ((0 : Nat) : α)) = true
      · simp [ht, hz] at h
      · simp [ht, hz] at h
    · simpa using ht

theorem exists_not_isRuntime_of_curvePoints
    (h : curvePoints reference candidates =
      .error (.outOfRange path benchmark extractor quantity value)) :
    ∃ m ∈ candidates, Measurement.isRuntime m.micros = false := by
  obtain ⟨m, hm, hsaved⟩ := exists_error_of_mapM (map_eq_error_iff.mp h)
  exact ⟨m, hm, not_isRuntime_of_saved hsaved⟩

/-- Curves are refused for a runtime out of range only if there is a result with such a runtime. -/
theorem exists_not_isRuntime_of_curves {excluded : List String}
    (h : curves ms name excluded = .error (.outOfRange path benchmark extractor quantity value)) :
    ∃ m ∈ ms, Measurement.isRuntime m.micros = false := by
  cases hr : Reference.of ms name with
  | error fault =>
    have hfault : curves ms name excluded = .error fault := bind_eq_error_iff.mpr (.inl hr)
    cases hfault.symm.trans h
    exact absurd (map_eq_error_iff.mp hr) index_ne_outOfRange
  | ok r =>
    rw [curves_of_reference hr] at h
    split at h
    · cases h
    · obtain ⟨e, -, hcurve⟩ := exists_error_of_mapM h
      rcases bind_eq_error_iff.mp hcurve with hindex | ⟨_, -, hcurve⟩
      · exact absurd hindex index_ne_outOfRange
      · obtain ⟨m, hm, hrun⟩ :=
          exists_not_isRuntime_of_curvePoints (bind_pure_eq_error_iff.mp hcurve)
        exact ⟨m, (Measurement.mem_ofExtractor.mp hm).1, hrun⟩

end OutOfRange

end ExtractionBench.FairShare
