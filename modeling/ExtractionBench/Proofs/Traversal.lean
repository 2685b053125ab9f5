import Mathlib.Data.List.Forall2
import Mathlib.Tactic

/-!
# Traversals that may fail

What it means for a checked computation over a list to succeed, and to fail: it succeeds if every
element does, and it fails with the first element that does. And what holds of a fold because it
holds of all it is made of.
-/

namespace ExtractionBench

variable {ε α β : Type}

theorem bind_eq_ok_iff {x : Except ε α} {f : α → Except ε β} {b : β} :
    (x >>= f) = .ok b ↔ ∃ a, x = .ok a ∧ f a = .ok b := by
  cases x with
  | error e => simp [bind, Except.bind]
  | ok a => simp [bind, Except.bind]

theorem bind_eq_error_iff {x : Except ε α} {f : α → Except ε β} {e : ε} :
    (x >>= f) = .error e ↔ x = .error e ∨ ∃ a, x = .ok a ∧ f a = .error e := by
  cases x with
  | error e' => simp [bind, Except.bind]
  | ok a => simp [bind, Except.bind]

/-- A step that only puts its result together does not fail. -/
theorem bind_pure_eq_error_iff {x : Except ε α} {f : α → β} {e : ε} :
    (x >>= fun a => pure (f a)) = .error e ↔ x = .error e := by
  cases x with
  | error e' => simp [bind, Except.bind]
  | ok a => simp [bind, Except.bind, pure, Except.pure]

theorem map_eq_ok_iff {x : Except ε α} {f : α → β} {b : β} :
    x.map f = .ok b ↔ ∃ a, x = .ok a ∧ f a = b := by
  cases x with
  | error e => simp [Except.map]
  | ok a => simp [Except.map]

theorem map_eq_error_iff {x : Except ε α} {f : α → β} {e : ε} :
    x.map f = .error e ↔ x = .error e := by
  cases x with
  | error e' => simp [Except.map]
  | ok a => simp [Except.map]

theorem mapError_eq_ok_iff {ε' : Type} {x : Except ε α} {f : ε → ε'} {a : α} :
    x.mapError f = .ok a ↔ x = .ok a := by
  cases x with
  | error e => simp [Except.mapError]
  | ok a' => simp [Except.mapError]

theorem toOption_eq_some_iff {x : Except ε α} {a : α} : x.toOption = some a ↔ x = .ok a := by
  cases x with
  | error e => simp [Except.toOption]
  | ok a' => simp [Except.toOption]

theorem exists_eq_ok_iff {x : Except ε α} : (∃ a, x = .ok a) ↔ x.toOption.isSome = true := by
  rw [Option.isSome_iff_exists]
  exact exists_congr fun _ => toOption_eq_some_iff.symm

/-- What every step of a fold keeps holds of its result. -/
theorem foldlM_keeps {step : β → α → Except ε β} {p : β → Prop} {xs : List α} {start result : β}
    (hstart : p start) (hstep : ∀ b x b', p b → step b x = .ok b' → p b')
    (h : xs.foldlM step start = .ok result) : p result := by
  induction xs generalizing start with
  | nil =>
    cases h
    exact hstart
  | cons x xs ih =>
    rw [List.foldlM_cons] at h
    obtain ⟨next, hnext, h⟩ := bind_eq_ok_iff.mp h
    exact ih (hstep _ _ _ hstart hnext) h

/-- A condition that holds of two elements put together exactly if it holds of both holds of a fold
exactly if it holds of the start and of every element. -/
theorem foldl_iff {f : α → α → α} {p : α → Prop} (hf : ∀ a b, p (f a b) ↔ p a ∧ p b) (start : α)
    (xs : List α) :
    p (xs.foldl f start) ↔ p start ∧ ∀ x ∈ xs, p x := by
  induction xs generalizing start with
  | nil => simp
  | cons x xs ih => rw [List.foldl_cons, ih, hf, List.forall_mem_cons, and_assoc]

theorem le_foldl_max [LinearOrder α] (start : α) (xs : List α) :
    start ≤ xs.foldl max start ∧ ∀ x ∈ xs, x ≤ xs.foldl max start :=
  (foldl_iff (p := (· ≤ xs.foldl max start)) (fun _ _ => max_le_iff) start xs).mp le_rfl

/-- A traversal succeeds with the results of its elements, in order. -/
theorem mapM_eq_ok_iff {f : α → Except ε β} {xs : List α} {ys : List β} :
    xs.mapM f = .ok ys ↔ List.Forall₂ (fun x y => f x = .ok y) xs ys := by
  induction xs generalizing ys with
  | nil => cases ys <;> simp [pure, Except.pure]
  | cons x xs ih =>
    rw [List.mapM_cons, bind_eq_ok_iff]
    constructor
    · rintro ⟨y, hy, h⟩
      obtain ⟨rest, hrest, hys⟩ := bind_eq_ok_iff.mp h
      cases hys
      exact List.Forall₂.cons hy (ih.mp hrest)
    · intro h
      cases h with
      | cons hy hrest => exact ⟨_, hy, bind_eq_ok_iff.mpr ⟨_, ih.mpr hrest, rfl⟩⟩

theorem exists_mapM_eq_ok_iff {f : α → Except ε β} {xs : List α} :
    (∃ ys, xs.mapM f = .ok ys) ↔ ∀ x ∈ xs, ∃ y, f x = .ok y := by
  induction xs with
  | nil => simp [pure, Except.pure]
  | cons x xs ih =>
    rw [List.forall_mem_cons, ← ih]
    constructor
    · rintro ⟨ys, h⟩
      cases mapM_eq_ok_iff.mp h with
      | cons hy hrest => exact ⟨⟨_, hy⟩, _, mapM_eq_ok_iff.mpr hrest⟩
    · rintro ⟨⟨y, hy⟩, ys, hys⟩
      exact ⟨y :: ys, mapM_eq_ok_iff.mpr (List.Forall₂.cons hy (mapM_eq_ok_iff.mp hys))⟩

theorem mapM_congr {f g : α → Except ε β} {xs : List α} (h : ∀ x ∈ xs, f x = g x) :
    xs.mapM f = xs.mapM g := by
  induction xs with
  | nil => rfl
  | cons x xs ih =>
    rw [List.mapM_cons, List.mapM_cons, h x List.mem_cons_self,
      ih fun y hy => h y (List.mem_cons_of_mem x hy)]

/-- Every result of a traversal is that of an element. -/
theorem exists_mem_of_mapM {f : α → Except ε β} {xs : List α} {ys : List β} (h : xs.mapM f = .ok ys)
    {y : β} (hy : y ∈ ys) : ∃ x ∈ xs, f x = .ok y := by
  replace h := mapM_eq_ok_iff.mp h
  induction h with
  | nil => cases hy
  | @cons x y' xs ys hx _ ih =>
    rcases List.mem_cons.mp hy with rfl | hy
    · exact ⟨x, List.mem_cons_self, hx⟩
    · obtain ⟨z, hz, hfz⟩ := ih hy
      exact ⟨z, List.mem_cons_of_mem x hz, hfz⟩

/-- What can be read off both an element and its result is the same for both lists. -/
theorem map_eq_map_of_mapM {γ : Type} {f : α → Except ε β} {g : β → γ} {k : α → γ} {xs : List α}
    {ys : List β} (h : xs.mapM f = .ok ys) (hg : ∀ x ∈ xs, ∀ y, f x = .ok y → g y = k x) :
    ys.map g = xs.map k := by
  replace h := mapM_eq_ok_iff.mp h
  induction h with
  | nil => rfl
  | @cons x y xs ys hx _ ih =>
    rw [List.map_cons, List.map_cons, hg x List.mem_cons_self y hx,
      ih fun z hz => hg z (List.mem_cons_of_mem x hz)]

/-- If the elements can be read off their results, so can the list. -/
theorem map_eq_of_mapM {f : α → Except ε β} {g : β → α} {xs : List α} {ys : List β}
    (h : xs.mapM f = .ok ys) (hg : ∀ x ∈ xs, ∀ y, f x = .ok y → g y = x) : ys.map g = xs := by
  rw [map_eq_map_of_mapM h hg, List.map_id']

/-- A traversal fails with one of its elements. -/
theorem exists_error_of_mapM {f : α → Except ε β} {xs : List α} {e : ε} (h : xs.mapM f = .error e) :
    ∃ x ∈ xs, f x = .error e := by
  induction xs with
  | nil => cases h
  | cons x xs ih =>
    rw [List.mapM_cons] at h
    rcases bind_eq_error_iff.mp h with hx | ⟨y, _, hrest⟩
    · exact ⟨x, List.mem_cons_self, hx⟩
    · obtain ⟨z, hz, hfz⟩ := ih (bind_pure_eq_error_iff.mp hrest)
      exact ⟨z, List.mem_cons_of_mem x hz, hfz⟩

/-- A traversal fails with the first of its elements that does. -/
theorem mapM_eq_error_iff {f : α → Except ε β} {xs : List α} {e : ε} :
    xs.mapM f = .error e ↔
      ∃ before x after, xs = before ++ x :: after ∧ (∀ y ∈ before, ∃ b, f y = .ok b) ∧
        f x = .error e := by
  induction xs with
  | nil => simp [pure, Except.pure]
  | cons x xs ih =>
    rw [List.mapM_cons, bind_eq_error_iff]
    constructor
    · rintro (hx | ⟨y, hy, hrest⟩)
      · exact ⟨[], x, xs, rfl, by simp, hx⟩
      · obtain ⟨before, z, after, rfl, hbefore, hz⟩ := ih.mp (bind_pure_eq_error_iff.mp hrest)
        exact ⟨x :: before, z, after, rfl, List.forall_mem_cons.mpr ⟨⟨y, hy⟩, hbefore⟩, hz⟩
    · rintro ⟨before, z, after, heq, hbefore, hz⟩
      cases before with
      | nil =>
        cases heq
        exact .inl hz
      | cons x' before =>
        cases heq
        obtain ⟨⟨y, hy⟩, hbefore⟩ := List.forall_mem_cons.mp hbefore
        exact .inr ⟨y, hy, bind_pure_eq_error_iff.mpr (ih.mpr ⟨before, z, after, rfl, hbefore, hz⟩)⟩

/-- A traversal in some order fails with the least element that does. -/
theorem mapM_eq_error_iff_of_pairwise {r : α → α → Prop} (hasymm : ∀ x y, r x y → ¬ r y x)
    {f : α → Except ε β} {xs : List α} {e : ε} (h : xs.Pairwise r) :
    xs.mapM f = .error e ↔ ∃ x ∈ xs, (∀ y ∈ xs, r y x → ∃ b, f y = .ok b) ∧ f x = .error e := by
  rw [mapM_eq_error_iff]
  constructor
  · rintro ⟨before, x, after, rfl, hbefore, hx⟩
    obtain ⟨-, hafter, -⟩ := List.pairwise_append.mp h
    refine ⟨x, by simp, fun y hy hlt => ?_, hx⟩
    rcases List.mem_append.mp hy with hy | hy
    · exact hbefore y hy
    · rcases List.mem_cons.mp hy with rfl | hy
      · exact absurd hlt (hasymm y y hlt)
      · exact absurd hlt (hasymm x y ((List.pairwise_cons.mp hafter).1 y hy))
  · rintro ⟨x, hx, hleast, hfault⟩
    obtain ⟨before, after, rfl⟩ := List.append_of_mem hx
    refine ⟨before, x, after, rfl, fun y hy => ?_, hfault⟩
    exact hleast y (List.mem_append_left _ hy)
      ((List.pairwise_append.mp h).2.2 y hy x List.mem_cons_self)

/-- A traversal in ascending order fails with the least element that does. -/
theorem mapM_eq_error_iff_of_ascending [Preorder α] {f : α → Except ε β} {xs : List α} {e : ε}
    (h : xs.Pairwise (· < ·)) :
    xs.mapM f = .error e ↔ ∃ x ∈ xs, (∀ y ∈ xs, y < x → ∃ b, f y = .ok b) ∧ f x = .error e :=
  mapM_eq_error_iff_of_pairwise (fun _ _ => lt_asymm) h

/-- Results of two traversals of one list can be joined element by element. -/
theorem mapM_zipWith {γ δ : Type} {f : α → Except ε β} {g : α → Except ε γ} {k : α → Except ε δ}
    {join : β → γ → δ} {xs : List α} {ys : List β} {zs : List γ} (hf : xs.mapM f = .ok ys)
    (hg : xs.mapM g = .ok zs) (hk : ∀ x y z, f x = .ok y → g x = .ok z → k x = .ok (join y z)) :
    xs.mapM k = .ok (List.zipWith join ys zs) := by
  rw [mapM_eq_ok_iff] at hf hg ⊢
  induction hf generalizing zs with
  | nil =>
    cases hg
    exact List.Forall₂.nil
  | cons hy _ ih =>
    cases hg with
    | cons hz hrest => exact List.Forall₂.cons (hk _ _ _ hy hz) (ih hrest)

/-! ## Two computations side by side -/

/-- Two computations end alike: both succeed, with related results, or both fail, with related
errors. -/
inductive Alike (errors : ε → ε → Prop) (results : α → β → Prop) :
    Except ε α → Except ε β → Prop where
  | ok {a : α} {b : β} (h : results a b) : Alike errors results (.ok a) (.ok b)
  | error {e e' : ε} (h : errors e e') : Alike errors results (.error e) (.error e')

namespace Alike

variable {γ δ : Type} {errors : ε → ε → Prop} {results : α → β → Prop} {later : γ → δ → Prop}
  {x : Except ε α} {y : Except ε β}

theorem exists_ok_iff (h : Alike errors results x y) : (∃ a, x = .ok a) ↔ ∃ b, y = .ok b := by
  cases h with
  | ok _ => exact iff_of_true ⟨_, rfl⟩ ⟨_, rfl⟩
  | error _ => exact iff_of_false (by simp) (by simp)

theorem of_ok (h : Alike errors results x y) {a : α} {b : β} (hx : x = .ok a) (hy : y = .ok b) :
    results a b := by
  cases h with
  | ok h =>
    cases hx
    cases hy
    exact h
  | error _ => cases hx

theorem exists_of_error (h : Alike errors results x y) {e : ε} (hx : x = .error e) :
    ∃ e', y = .error e' ∧ errors e e' := by
  cases h with
  | ok _ => cases hx
  | error h =>
    cases hx
    exact ⟨_, rfl, h⟩

theorem eq_iff {x y : Except ε α} : Alike Eq Eq x y ↔ x = y := by
  constructor
  · rintro (rfl | rfl)
    · rfl
    · rfl
  · rintro rfl
    cases x with
    | ok a => exact .ok rfl
    | error e => exact .error rfl

/-- Alike computations stay alike as long as what follows on related results is alike. -/
theorem bind {f : α → Except ε γ} {g : β → Except ε δ} (h : Alike errors results x y)
    (hnext : ∀ a b, results a b → Alike errors later (f a) (g b)) :
    Alike errors later (x >>= f) (y >>= g) := by
  cases h with
  | ok h => exact hnext _ _ h
  | error h => exact .error h

/-- Traversals of one list are alike if they are at each of its elements. -/
theorem mapM {f : γ → Except ε α} {g : γ → Except ε β} {xs : List γ}
    (h : ∀ x ∈ xs, Alike errors results (f x) (g x)) :
    Alike errors (List.Forall₂ results) (xs.mapM f) (xs.mapM g) := by
  induction xs with
  | nil => exact .ok List.Forall₂.nil
  | cons x xs ih =>
    rw [List.mapM_cons, List.mapM_cons]
    refine bind (h x List.mem_cons_self) fun a b hab => ?_
    refine bind (ih fun z hz => h z (List.mem_cons_of_mem x hz)) fun as bs hrest => ?_
    exact .ok (List.Forall₂.cons hab hrest)

end Alike

end ExtractionBench
