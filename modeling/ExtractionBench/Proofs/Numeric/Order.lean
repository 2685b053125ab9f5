import Mathlib.Tactic
import ExtractionBench.Numeric.Double

/-!
# Comparing doubles

A comparison is the same seen from both sides, except for a NaN. So of two finite doubles one is at
most the other, although `≤` is no total order on all doubles.
-/

namespace ExtractionBench.Double

open Float.Model (UnpackedFloat)

section Unpacked

variable {x y : UnpackedFloat}

theorem compare_swap (x y : UnpackedFloat) : y.compare x = (x.compare y).map Ordering.swap := by
  have hmagnitude : ∀ (m m' : Nat) (e e' : Int),
      (compare e' e).then (compare m' m) = ((compare e e').then (compare m m')).swap := by
    intro m m' e e'
    rw [Ordering.swap_then, ← Int.compare_swap, ← Nat.compare_swap]
  cases x with
  | notANumber => cases y <;> rfl
  | zero s =>
    cases y with
    | notANumber => rfl
    | zero s' => rfl
    | infinity s' => cases s' <;> rfl
    | finite s' _ _ _ => cases s' <;> rfl
  | infinity s =>
    cases y with
    | infinity s' => cases s <;> cases s' <;> rfl
    | _ => cases s <;> rfl
  | finite s m e _ =>
    cases y with
    | infinity s' => cases s <;> cases s' <;> rfl
    | finite s' m' e' _ =>
      -- Only numbers of one sign are compared by exponent and mantissa.
      cases s <;> cases s'
      · exact congrArg some (congrArg Ordering.swap (hmagnitude m m' e e'))
      · rfl
      · rfl
      · exact congrArg some (hmagnitude m m' e e')
    | _ => cases s <;> rfl

/-- Finite numbers can be compared. -/
theorem isSome_compare (hx : x.isFinite = true) (hy : y.isFinite = true) :
    (x.compare y).isSome = true := by
  cases x with
  | notANumber => cases hx
  | infinity _ => cases hx
  | zero s =>
    cases y with
    | notANumber => cases hy
    | infinity _ => cases hy
    | zero _ => rfl
    | finite s' _ _ _ => cases s' <;> rfl
  | finite s _ _ _ =>
    cases y with
    | notANumber => cases hy
    | infinity _ => cases hy
    | zero _ => cases s <;> rfl
    | finite s' _ _ _ => cases s <;> cases s' <;> rfl

/-- Of two finite numbers one is not greater. -/
theorem le_or_le_unpacked (hx : x.isFinite = true) (hy : y.isFinite = true) :
    x.le y = true ∨ y.le x = true := by
  obtain ⟨o, ho⟩ := Option.isSome_iff_exists.mp (isSome_compare hx hy)
  unfold UnpackedFloat.le
  rw [compare_swap x y, ho]
  cases o with
  | lt => exact .inl rfl
  | eq => exact .inl rfl
  | gt => exact .inr rfl

end Unpacked

theorem le_iff {x y : Double} :
    x ≤ y ↔ x.toFloat.toModel.unpack.le y.toFloat.toModel.unpack = true :=
  decide_eq_true_iff

/-- A finite double that is not at most another one is at least that one. -/
theorem le_of_not_le {x y : Double} (hx : x.isFinite = true) (hy : y.isFinite = true)
    (h : ¬ x ≤ y) : y ≤ x := by
  rw [le_iff] at h ⊢
  exact (le_or_le_unpacked hx hy).resolve_left h

end ExtractionBench.Double
