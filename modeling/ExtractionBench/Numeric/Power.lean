/-!
# Powers of two and of ten

Binary numbers are scaled by powers of two and decimals by powers of ten. Both are functions on
naturals, so a scaled number stays exact.
-/

namespace ExtractionBench

/-- The `k`-th power of two. -/
def twoTo (k : Nat) : Nat := Nat.pow 2 k

/-- The `k`-th power of ten. -/
def tenTo (k : Nat) : Nat := Nat.pow 10 k

/-- Nothing is scaled by the zeroth power. -/
@[simp] theorem twoTo_zero : twoTo 0 = 1 := rfl

/-- The next power is twice as great. -/
theorem twoTo_succ (k : Nat) : twoTo (k + 1) = twoTo k * 2 := rfl

/-- No power of two is zero. -/
theorem twoTo_pos (k : Nat) : 0 < twoTo k := by
  induction k with
  | zero => decide
  | succ k ih =>
    rw [twoTo_succ]
    omega

/-- Nothing is scaled by the zeroth power. -/
@[simp] theorem tenTo_zero : tenTo 0 = 1 := rfl

/-- The next power is ten times as great. -/
theorem tenTo_succ (k : Nat) : tenTo (k + 1) = tenTo k * 10 := rfl

/-- No power of ten is zero. -/
theorem tenTo_pos (k : Nat) : 0 < tenTo k := by
  induction k with
  | zero => decide
  | succ k ih =>
    rw [tenTo_succ]
    omega

end ExtractionBench
