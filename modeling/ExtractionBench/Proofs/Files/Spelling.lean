import Mathlib.Tactic
import ExtractionBench.Proofs.Files.Directory

/-!
# The spellings of a path

Between and behind the steps of a path there may be steps that stand for nothing, and the path stays
the same. The one step of this kind that counts is a point at the start, which makes another path of
one that does not start so.
-/

namespace ExtractionBench.Path

variable {p q : Path} {first : List Char} {rest rest' : List (List Char)}

theorem segments_slash (x y : String) :
    (⟨x ++ "/" ++ y⟩ : Path).segments = (⟨x⟩ : Path).segments ++ (⟨y⟩ : Path).segments := by
  unfold segments
  rw [String.toList_append, String.toList_append, ← Text.splitOn_append_cons x.toList y.toList '/',
    List.append_assoc]
  rfl

/-- Two paths are the same if their segments start alike and the others stand for the same
components. A path of one segment without characters is empty, and one of more segments starts at
the root. -/
theorem components_congr (hp : p.segments = first :: rest) (hq : q.segments = first :: rest')
    (hroot : first = [] → (rest = [] ↔ rest' = []))
    (h : rest.filterMap component? = rest'.filterMap component?) :
    p.components = q.components := by
  unfold components
  by_cases hidle : isIdle first = true
  · rcases isIdle_iff.mp hidle with rfl | rfl
    · cases rest with
      | nil =>
        obtain rfl : rest' = [] := (hroot rfl).mp rfl
        rw [split, split, hp, hq]
      | cons next rest =>
        obtain ⟨next', rest', rfl⟩ :=
          List.exists_cons_of_ne_nil (mt (hroot rfl).mpr (List.cons_ne_nil next rest))
        rw [split_root hp, split_root hq]
        exact congrArg (Start.root.components ++ ·) h
    · rw [split_here hp, split_here hq]
      exact congrArg (Start.here.components ++ ·) h
  · have hstep : isIdle first = false := Bool.eq_false_iff.mpr hidle
    rw [split_plain hp hstep, split_plain hq hstep, List.filterMap_cons, List.filterMap_cons, h]

/-- A step that stands for nothing can be left out between others. -/
theorem same_idle_step (x y : String) {step : String} (hstep : step = "" ∨ step = ".") :
    same ⟨x ++ "/" ++ step ++ "/" ++ y⟩ ⟨x ++ "/" ++ y⟩ = true := by
  have hsegments : (⟨step⟩ : Path).segments = [step.toList] ∧ component? step.toList = none := by
    rcases hstep with rfl | rfl
    · exact ⟨by decide, by decide⟩
    · exact ⟨by decide, by decide⟩
  obtain ⟨first, rest, hx⟩ := List.exists_cons_of_ne_nil (List.splitOn_ne_nil '/' x.toList)
  have hx : (⟨x⟩ : Path).segments = first :: rest := hx
  have hy : (⟨y⟩ : Path).segments ≠ [] := List.splitOn_ne_nil '/' y.toList
  have hlong : (⟨x ++ "/" ++ step ++ "/" ++ y⟩ : Path).segments =
      first :: (rest ++ [step.toList] ++ (⟨y⟩ : Path).segments) := by
    rw [segments_slash, segments_slash, hx, hsegments.1, List.cons_append, List.cons_append]
  have hshort : (⟨x ++ "/" ++ y⟩ : Path).segments = first :: (rest ++ (⟨y⟩ : Path).segments) := by
    rw [segments_slash, hx, List.cons_append]
  refine beq_iff_eq.mpr (components_congr hlong hshort ?_ ?_)
  · simp [hy]
  · simp [hsegments.2]

/-- A slash at the end can be left out, but for the one that is the root. -/
theorem same_trailing_slash {x : String} (hx : x ≠ "") : same ⟨x ++ "/"⟩ ⟨x⟩ = true := by
  obtain ⟨first, rest, hsegments⟩ := List.exists_cons_of_ne_nil (List.splitOn_ne_nil '/' x.toList)
  have hslash : (⟨x ++ "/"⟩ : Path).segments = first :: (rest ++ [[]]) := by
    have hsplit := segments_slash x ""
    rw [String.append_empty] at hsplit
    rw [hsplit]
    show x.toList.splitOn '/' ++ [[]] = first :: (rest ++ [[]])
    rw [hsegments, List.cons_append]
  refine beq_iff_eq.mpr (components_congr hslash hsegments ?_ ?_)
  · -- A single segment without characters is the empty path.
    rintro rfl
    simp only [List.append_eq_nil_iff, List.cons_ne_self, and_false, false_iff]
    rintro rfl
    have htext : ['/'].intercalate (x.toList.splitOn '/') = x.toList := List.intercalate_splitOn '/'
    rw [hsegments] at htext
    exact hx (String.toList_eq_nil_iff.mp htext.symm)
  · rw [List.filterMap_append]
    exact List.append_nil _

theorem component?_ne_here (segment : List Char) : component? segment ≠ some .here := by
  unfold component?
  split_ifs
  · simp
  · simp
  · simp

/-- A point put in front makes another path, unless there is one already. -/
theorem same_here_iff (x : String) :
    same ⟨"./" ++ x⟩ ⟨x⟩ = true ↔ (⟨x⟩ : Path).components.head? = some .here := by
  have hhere :
      (⟨"./" ++ x⟩ : Path).components = .here :: (⟨x⟩ : Path).segments.filterMap component? := by
    have hsegments : (⟨"./" ++ x⟩ : Path).segments = ['.'] :: (⟨x⟩ : Path).segments :=
      segments_slash "." x
    rw [components, split_here hsegments]
    rfl
  unfold same
  rw [hhere, beq_iff_eq]
  constructor
  · intro h
    rw [← h]
    rfl
  · intro h
    rcases segments_cases ⟨x⟩ with ⟨first, rest, hx⟩ | ⟨rest, hx⟩ | hx | ⟨first, rest, hx, hidle⟩
    · rw [components, split_root hx] at h
      cases h
    · rw [components, split_here hx, hx]
      rfl
    · rw [components, split, hx] at h
      cases h
    · rw [components, split_plain hx hidle] at h
      obtain ⟨c, hc, -⟩ := exists_component hidle
      have hcomponent : c = .here := by simpa [Start.components, hc] using h
      exact absurd (hcomponent ▸ hc) (component?_ne_here first)

end ExtractionBench.Path
