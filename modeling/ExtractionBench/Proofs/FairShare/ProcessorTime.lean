import Mathlib.Algebra.Order.BigOperators.Group.List
import Mathlib.Algebra.Order.Field.Rat
import Mathlib.Data.Rat.Floor
import Mathlib.Tactic

/-!
# Processor time under a fair share

Two sums over a list of runtimes carry everything that is proved about the replay. `work` is the
processor time used once every benchmark has been given the same share; it is what an ideal
scheduler, which splits the processor evenly at every moment, has spent by then. `charge` is what
the replay hands out: the benchmarks below the last budget are charged their runtimes and each of
the others gets the same share. The replay never hands out less than the ideal (`work_le_charge`),
and as long as it lags behind the ideal, one more benchmark finishes (`exists_newly_finished`).
-/

namespace ExtractionBench.FairShare

variable {ms : List Rat} {budget share : Rat}

/-- The processor time used once every benchmark has been given `share`, or its runtime if that is
less. At a benchmark's own runtime it is the time at which that benchmark finishes when the
processor is split evenly at every moment. -/
def work (ms : List Rat) (share : Rat) : Rat := (ms.map fun m => min m share).sum

/-- The processor time handed out when the benchmarks below `budget` are charged their runtimes and
each of the others gets `share`. -/
def charge (ms : List Rat) (budget share : Rat) : Rat :=
  (ms.map fun m => if m < budget then m else share).sum

/-- The number of benchmarks that finish under a budget. -/
def countUnder (ms : List Rat) (budget : Rat) : Nat := ms.countP fun m => decide (m < budget)

theorem countUnder_le_length : countUnder ms budget ≤ ms.length := List.countP_le_length

theorem countUnder_lt_length_iff : countUnder ms budget < ms.length ↔ ∃ m ∈ ms, budget ≤ m := by
  have hle : countUnder ms budget ≤ ms.length := countUnder_le_length
  have heq : countUnder ms budget = ms.length ↔ ∀ m ∈ ms, m < budget := by
    simp [countUnder, List.countP_eq_length]
  constructor
  · intro h
    by_contra hno
    push Not at hno
    exact h.ne (heq.mpr hno)
  · rintro ⟨m, hm, hb⟩
    refine lt_of_le_of_ne hle fun h => ?_
    exact absurd (heq.mp h m hm) (not_lt.mpr hb)

theorem countUnder_mono {b c : Rat} (h : b ≤ c) : countUnder ms b ≤ countUnder ms c := by
  refine List.countP_mono_left fun m _ hm => ?_
  have hlt : m < b := by simpa using hm
  simpa using hlt.trans_le h

/-- A budget that is raised past some runtime finishes more benchmarks. -/
theorem countUnder_lt {b c : Rat} (h : b ≤ c) (hnew : ∃ m ∈ ms, b ≤ m ∧ m < c) :
    countUnder ms b < countUnder ms c := by
  obtain ⟨m, hm, hbm, hmc⟩ := hnew
  obtain ⟨l1, l2, rfl⟩ := List.append_of_mem hm
  have h1 : countUnder l1 b ≤ countUnder l1 c := countUnder_mono h
  have h2 : countUnder l2 b ≤ countUnder l2 c := countUnder_mono h
  unfold countUnder at h1 h2 ⊢
  rw [List.countP_append, List.countP_append, List.countP_cons_of_neg (by simpa using hbm),
    List.countP_cons_of_pos (by simpa using hmc)]
  omega

/-- Runtimes of the finished ones, and the same share for each of the others. -/
theorem charge_eq :
    charge ms budget share = (ms.filter fun m => decide (m < budget)).sum
      + ((ms.length - countUnder ms budget : Nat) : Rat) * share := by
  induction ms with
  | nil => simp [charge, countUnder]
  | cons m rest ih =>
    have hle : countUnder rest budget ≤ rest.length := countUnder_le_length
    unfold charge at ih ⊢
    rw [List.map_cons, List.sum_cons, ih]
    by_cases hm : m < budget
    · have hcount : countUnder (m :: rest) budget = countUnder rest budget + 1 := by
        simp [countUnder, hm]
      rw [hcount, if_pos hm, List.filter_cons_of_pos (by simpa using hm), List.sum_cons,
        List.length_cons, Nat.add_sub_add_right]
      ring
    · have hcount : countUnder (m :: rest) budget = countUnder rest budget := by
        simp [countUnder, hm]
      rw [hcount, if_neg hm, List.filter_cons_of_neg (by simpa using hm), List.length_cons,
        Nat.succ_sub hle]
      push_cast
      ring

/-- The same budget again hands out exactly the ideal. -/
theorem charge_self : charge ms budget budget = work ms budget := by
  unfold charge work
  congr 1
  refine List.map_congr_left fun m _ => ?_
  split
  · rename_i h
    exact (min_eq_left h.le).symm
  · rename_i h
    exact (min_eq_right (not_lt.mp h)).symm

/-- Whatever the finished ones are charged, the ideal has used no more at that share. -/
theorem work_le_charge : work ms share ≤ charge ms budget share := by
  refine List.sum_le_sum fun m _ => ?_
  split
  · exact min_le_left m share
  · exact min_le_right m share

theorem charge_sub {x y : Rat} :
    charge ms budget y - charge ms budget x
      = ((ms.length - countUnder ms budget : Nat) : Rat) * (y - x) := by
  rw [charge_eq, charge_eq]
  ring

/-- While a benchmark is running, a greater share hands out more. -/
theorem charge_lt_charge (hrun : ∃ m ∈ ms, budget ≤ m) {x y : Rat} (h : x < y) :
    charge ms budget x < charge ms budget y := by
  have hcount : countUnder ms budget < ms.length := countUnder_lt_length_iff.mpr hrun
  have hactive : (0 : Rat) < ((ms.length - countUnder ms budget : Nat) : Rat) := by
    exact_mod_cast Nat.sub_pos_of_lt hcount
  have hpos : 0 < charge ms budget y - charge ms budget x := by
    rw [charge_sub]
    exact mul_pos hactive (sub_pos.mpr h)
  linarith

/-- What lies below the share of a running benchmark is finished in the ideal before everything has
been handed out. -/
theorem work_lt_charge (hrun : ∃ m ∈ ms, budget ≤ m) {x : Rat} (h : x < share) :
    work ms x < charge ms budget share :=
  work_le_charge.trans_lt (charge_lt_charge hrun h)

/-- As long as more is handed out than the ideal needs for `x`, but `x` is not below the new share,
some other benchmark finishes. -/
theorem exists_newly_finished {x : Rat} (hbudget : budget ≤ share) (hx : share ≤ x)
    (h : work ms x < charge ms budget share) : ∃ m ∈ ms, budget ≤ m ∧ m < share := by
  by_contra hno
  push Not at hno
  refine absurd h (not_lt.mpr (List.sum_le_sum fun m hm => ?_))
  split
  · rename_i hlt
    exact le_min le_rfl ((hlt.le.trans hbudget).trans hx)
  · rename_i hge
    exact le_min (hno m hm (not_lt.mp hge)) hx

/-- When everything runs at least for `share`, everything has been given it. -/
theorem work_of_forall_le (h : ∀ m ∈ ms, share ≤ m) :
    work ms share = (ms.length : Rat) * share := by
  unfold work
  have hmap : (ms.map fun m => min m share) = ms.map fun _ => share :=
    List.map_congr_left fun m hm => min_eq_right (h m hm)
  rw [hmap, List.map_const', List.sum_replicate, nsmul_eq_mul]

/-- At a share that nothing exceeds, the ideal has used the total runtime. -/
theorem work_of_forall_ge (h : ∀ m ∈ ms, m ≤ share) : work ms share = ms.sum := by
  unfold work
  have hmap : (ms.map fun m => min m share) = ms.map id :=
    List.map_congr_left fun m hm => min_eq_left (h m hm)
  rw [hmap, List.map_id]

end ExtractionBench.FairShare
