import Mathlib.Tactic
import ExtractionBench.Files.Path
import ExtractionBench.Proofs.Ascending

/-!
# The order of paths

Components are in a linear order, and paths in the lexicographic order of their components. So of
two paths neither comes before the other exactly if they have the same components.
-/

namespace ExtractionBench

namespace Component

variable {a b c : Component}

theorem not_before_self (a : Component) : a.before a = false := by
  cases a with
  | named a => exact decide_eq_false (lt_irrefl a)
  | _ => rfl

theorem before_trans (hab : a.before b = true) (hbc : b.before c = true) : a.before c = true := by
  cases a with
  | named a =>
    cases b with
    | named b =>
      cases c with
      | named c => exact decide_eq_true (lt_trans (of_decide_eq_true hab) (of_decide_eq_true hbc))
      | _ => cases hbc
    | _ => cases hab
  | _ =>
    -- The three other components come in a fixed order, all of them before names.
    cases b <;> cases c <;> simp_all [before]

theorem eq_of_not_before (hab : ¬ a.before b = true) (hba : ¬ b.before a = true) : a = b := by
  cases a with
  | named a =>
    cases b with
    | named b =>
      have hle : b ≤ a := not_lt.mp fun h => hab (decide_eq_true h)
      have hge : a ≤ b := not_lt.mp fun h => hba (decide_eq_true h)
      rw [le_antisymm hge hle]
    | _ => exact absurd rfl hba
  | _ => cases b <;> simp_all [before]

end Component

namespace Path

variable {p q r : Path}

theorem before_iff :
    p.before q = true ↔
      List.Lex (fun a b => Component.before a b = true) p.components q.components :=
  List.lex_eq_true_iff_lex _

theorem not_before_of_components_eq (h : p.components = q.components) : p.before q = false := by
  rw [Bool.eq_false_iff, ne_eq, before_iff, h]
  exact List.lex_irrefl (fun a => by simp [Component.not_before_self]) _

theorem before_trans (hpq : p.before q = true) (hqr : q.before r = true) : p.before r = true := by
  rw [before_iff] at hpq hqr ⊢
  exact List.lex_trans (fun hab hbc => Component.before_trans hab hbc) hpq hqr

/-- Of two paths of which neither comes before the other all components are the same. -/
theorem components_eq_of_not_before (hpq : ¬ p.before q = true) (hqp : ¬ q.before p = true) :
    p.components = q.components := by
  rw [before_iff] at hpq hqp
  exact List.lex_trichotomous (fun _ _ => Component.eq_of_not_before) hqp hpq

/-- Paths are ordered up to the way that they are written. -/
theorem weakOrder_before : Ascending.WeakOrder Path.before where
  irrefl p := not_before_of_components_eq rfl
  trans _ _ _ := before_trans
  between p q r hpr := by
    by_cases hpq : p.before q = true
    · exact .inl hpq
    · by_cases hqp : q.before p = true
      · exact .inr (before_trans hqp hpr)
      · have heq := components_eq_of_not_before hpq hqp
        rw [before_iff, heq] at hpr
        exact .inr (before_iff.mpr hpr)

/-- Paths tie if they denote the same place. -/
theorem tied_before (p q : Path) : Ascending.tied Path.before p q = p.same q := by
  rw [Bool.eq_iff_iff, Ascending.tied_iff]
  unfold same
  rw [beq_iff_eq]
  constructor
  · rintro ⟨hpq, hqp⟩
    exact components_eq_of_not_before (Bool.eq_false_iff.mp hpq) (Bool.eq_false_iff.mp hqp)
  · intro h
    exact ⟨not_before_of_components_eq h, not_before_of_components_eq h.symm⟩

end Path

end ExtractionBench
