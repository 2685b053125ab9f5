import Mathlib
import ExtractionBench.Json.Problem
import ExtractionBench.Proofs.Numeric.Whole

/-!
# Whole numbers in decimals

The shortest decimal of a whole number below `2 ^ 53` is the number itself: on the grids of the
powers of ten from one on, nothing but the number lies in the interval of reals that round to it. So
its digits are written, and the zero behind the point.
-/

namespace ExtractionBench.Decimal

variable {n k : Nat}

/-! ## The interval around a whole number -/

theorem eq_of_near {unit low c : Nat} (hunit : 4 ≤ unit) (hlow : n * unit ≤ low + 2)
    (h : low ≤ c * unit) (h' : c * unit ≤ n * unit + 2) : c = n := by
  rcases Nat.lt_trichotomy c n with hlt | heq | hgt
  · have : (c + 1) * unit ≤ n * unit := Nat.mul_le_mul_right unit hlt
    rw [Nat.add_mul] at this
    omega
  · exact heq
  · have : (n + 1) * unit ≤ c * unit := Nat.mul_le_mul_right unit hgt
    rw [Nat.add_mul] at this
    omega

/-- Of the whole numbers only the number itself lies in its interval, which is given in units of
`2 ^ -(k + 2)`. -/
theorem Interval.mem_whole (hn : 0 < n) (c : Nat) :
    (let i := Interval.of (n * 2 ^ k) (-k)
    if i.closed then decide (i.low ≤ c * 2 ^ (k + 2)) && decide (c * 2 ^ (k + 2) ≤ i.high)
    else decide (i.low < c * 2 ^ (k + 2)) && decide (c * 2 ^ (k + 2) < i.high)) =
      decide (c = n) := by
  have hunit : 4 ≤ 2 ^ (k + 2) := by
    have := Nat.one_le_two_pow (n := k)
    rw [Nat.pow_add]
    omega
  have hmid : 4 * (n * 2 ^ k) = n * 2 ^ (k + 2) := by ring
  have hpos : 4 ≤ n * 2 ^ (k + 2) := Nat.le_trans hunit (Nat.le_mul_of_pos_left _ hn)
  obtain ⟨hlow, hlow'⟩ : n * 2 ^ (k + 2) ≤ (Interval.of (n * 2 ^ k) (-k)).low + 2
      ∧ (Interval.of (n * 2 ^ k) (-k)).low < n * 2 ^ (k + 2) := by
    simp only [Interval.of, hmid]
    split <;> omega
  have hhigh : (Interval.of (n * 2 ^ k) (-k)).high = n * 2 ^ (k + 2) + 2 := by
    simp only [Interval.of, hmid]
  dsimp only
  rw [hhigh]
  split
  · rw [← Bool.decide_and]
    apply decide_eq_decide.mpr
    constructor
    · rintro ⟨h, h'⟩
      exact eq_of_near hunit hlow h h'
    · rintro rfl
      omega
  · rw [← Bool.decide_and]
    apply decide_eq_decide.mpr
    constructor
    · rintro ⟨h, h'⟩
      exact eq_of_near hunit hlow (Nat.le_of_lt h) (Nat.le_of_lt h')
    · rintro rfl
      omega

/-- On the grid of a power of ten a whole number is found if it is a multiple of the power. -/
theorem onGrid_whole (tie : Tie) (hn : 0 < n) (q : Nat) :
    onGrid tie (n * 2 ^ k) (-k) q = if n / tenTo q * tenTo q = n then some ⟨n / tenTo q, q⟩
      else none := by
  have hup : twoTo (-(k : Int) - 2).toNat * tenTo (-(q : Int)).toNat = 1 := by
    rw [show (-(k : Int) - 2).toNat = 0 by omega, show (-(q : Int)).toNat = 0 by omega]
    rfl
  have hunit : twoTo (2 - -(k : Int)).toNat * tenTo (q : Int).toNat = 2 ^ (k + 2) * tenTo q := by
    rw [show (2 - -(k : Int)).toNat = k + 2 by omega, show (q : Int).toNat = q by omega]
    rfl
  have hbelow : (Interval.of (n * 2 ^ k) (-k)).mid / (2 ^ (k + 2) * tenTo q) = n / tenTo q := by
    have hmid : (Interval.of (n * 2 ^ k) (-k)).mid = 2 ^ (k + 2) * n := by
      simp only [Interval.of]
      ring
    rw [hmid, Nat.mul_div_mul_left _ _ (Nat.two_pow_pos _)]
  have hcommute : ∀ c, c * (2 ^ (k + 2) * tenTo q) = c * tenTo q * 2 ^ (k + 2) := fun c => by ring
  have hnext : (n / tenTo q + 1) * tenTo q ≠ n := by
    have hdivide := Nat.div_add_mod' n (tenTo q)
    have hless := Nat.mod_lt n (tenTo_pos q)
    rw [Nat.add_mul]
    omega
  have hread := fun c => Interval.mem_whole (k := k) hn (c * tenTo q)
  dsimp only at hread
  simp only [onGrid, hup, hunit, Nat.mul_one, hbelow, hcommute, hread]
  by_cases h : n / tenTo q * tenTo q = n
  · rw [decide_eq_true h, decide_eq_false hnext, if_pos h]
  · rw [decide_eq_false h, decide_eq_false hnext, if_neg h]

/-! ## The shortest decimal -/

/-- The first digit of a whole number stands before the point, and there are no more than
seventeen. -/
theorem leadingPower_whole (hk : k ≤ 52) (h : Double.FullMantissa (n * 2 ^ k)) :
    ∃ top : Nat, leadingPower (n * 2 ^ k) (-k) = top ∧ top ≤ 16 := by
  have hne : n ≠ 0 := by
    rintro rfl
    exact absurd h.pos (by simp)
  have hlog : n.log2 ≤ 52 := by
    have := Double.log2_mul_two_pow hne k
    have := h.log2_eq
    omega
  have hguess :
      (((n * 2 ^ k).log2 + (-k : Int)) * 30103).fdiv 100000 = (n.log2 * 30103 / 100000 : Nat) := by
    rw [Double.log2_mul_two_pow hne, Int.fdiv_eq_ediv_of_nonneg _ (by norm_num)]
    push_cast
    congr 1
    ring
  rw [leadingPower, if_neg (Nat.ne_of_gt h.pos)]
  dsimp only
  rw [hguess]
  split
  · exact ⟨n.log2 * 30103 / 100000 + 1, rfl, by omega⟩
  · exact ⟨n.log2 * 30103 / 100000, rfl, by omega⟩

theorem tenTo_add (a b : Nat) : tenTo (a + b) = tenTo a * tenTo b := Nat.pow_add 10 a b

/-- The shortest decimal of a whole number is the number. -/
theorem shortest_whole (tie : Tie) (hk : k ≤ 52) (h : Double.FullMantissa (n * 2 ^ k)) :
    ∃ q : Nat, (shortest tie (n * 2 ^ k) (-k)).power = q
      ∧ (shortest tie (n * 2 ^ k) (-k)).significand * tenTo q = n := by
  have hn : 0 < n := Nat.pos_of_mul_pos_right h.pos
  obtain ⟨top, htop, hsmall⟩ := leadingPower_whole hk h
  have hgrid : ∀ j ∈ List.range (top + 1), onGrid tie (n * 2 ^ k) (-k) (top - (j : Int))
      = if n / tenTo (top - j) * tenTo (top - j) =
        n then some ⟨n / tenTo (top - j), (top - j : Nat)⟩ else none := by
    intro j hj
    have hle : j ≤ top := Nat.le_of_lt_succ (List.mem_range.mp hj)
    have hcast : (top : Int) - j = (top - j : Nat) := by omega
    rw [hcast]
    exact onGrid_whole tie hn (top - j)
  -- the grid of ones is among those that are tried
  obtain ⟨d, hfound⟩ : ∃ d, ((List.range (top + 1)).findSome? fun j : Nat =>
      onGrid tie (n * 2 ^ k) (-k) (top - (j : Int))) = some d := by
    apply Option.isSome_iff_exists.mp
    rw [List.findSome?_isSome_iff]
    refine ⟨top, List.mem_range.mpr (Nat.lt_succ_self top), ?_⟩
    rw [hgrid top (List.mem_range.mpr (Nat.lt_succ_self top)), Nat.sub_self, tenTo_zero,
      Nat.div_one, Nat.mul_one, if_pos rfl]
    rfl
  obtain ⟨j, hj, hd⟩ := List.exists_of_findSome?_eq_some hfound
  rw [hgrid j hj] at hd
  split at hd
  · next hmultiple =>
    cases hd
    have hshortest : shortest tie (n * 2 ^ k) (-k)
        = Scaled.dropZeros 17 ⟨n / tenTo (top - j), (top - j : Nat)⟩ := by
      have hrange :
          List.range 17 = List.range (top + 1) ++ (List.range (16 - top)).map (top + 1 + ·) := by
        rw [← List.range_add]
        congr 1
        omega
      rw [shortest, if_neg (Nat.ne_of_gt h.pos)]
      dsimp only
      rw [htop, hrange, List.findSome?_append, hfound]
      rfl
    obtain ⟨zeros, hsignificand, hpower⟩ :=
      Scaled.exists_significand_eq_dropZeros 17 ⟨n / tenTo (top - j), (top - j : Nat)⟩
    refine ⟨top - j + zeros, ?_, ?_⟩
    · rw [hshortest, hpower, Nat.cast_add]
    · rw [hshortest, tenTo_add, Nat.mul_comm (tenTo _), ← Nat.mul_assoc, ← hsignificand, hmultiple]
  · cases hd

/-! ## Digits -/

theorem digits_mul_tenTo {c : Nat} (hc : 0 < c) (q : Nat) :
    digits (c * tenTo q) = digits c ++ List.replicate q '0' := by
  induction q with
  | zero => simp
  | succ q ih =>
    have hpos : 0 < c * tenTo q := Nat.mul_pos hc (tenTo_pos q)
    have hnext : c * tenTo (q + 1) = 10 * (c * tenTo q) + 0 := by
      rw [tenTo_succ]
      ring
    rw [hnext, digits, ← Nat.toDigits_append_toDigits (by norm_num) hpos (by norm_num)]
    change digits (c * tenTo q) ++ ['0'] = _
    rw [ih, List.append_assoc, ← List.replicate_succ']

/-- A whole number of at most sixteen digits is written with a zero behind the point. -/
theorem layout_whole {d : Scaled} {q : Nat} (hn : 0 < n) (hsmall : n < 10 ^ 16)
    (hpower : d.power = q) (hvalue : d.significand * tenTo q = n) :
    Json.realFormat.layout d = digits n ++ ['.', '0'] := by
  have hpos : 0 < d.significand := Nat.pos_of_mul_pos_right (hvalue ▸ hn)
  have hdigits : digits n = digits d.significand ++ List.replicate q '0' := by
    rw [← hvalue, digits_mul_tenTo hpos]
  have hlength : (digits n).length ≤ 16 :=
    (Nat.length_toDigits_le_iff (by norm_num) (by norm_num)).mpr hsmall
  have hsome : 0 < (digits d.significand).length := List.length_pos_iff.mpr Nat.toDigits_ne_nil
  rw [hdigits, List.length_append, List.length_replicate] at hlength
  have hleading : -5 ≤ d.leading ∧ d.leading < 16 := by
    rw [Scaled.leading, hpower]
    omega
  have hparts : d.parts = (digits n, []) := by
    have hplaces : (-d.power).toNat = 0 := by omega
    have hzeros : d.power.toNat = q := by omega
    have hwhole : ¬ (digits d.significand).length ≤ 0 := by omega
    simp only [Scaled.parts, hplaces, hzeros, if_neg hwhole, Nat.sub_zero, List.take_length,
      List.drop_length, hdigits]
  simp only [ShortestFormat.layout, Json.realFormat, hparts]
  simp [hleading, withPoint]

/-- A whole number below `2 ^ 53` is written with its digits and a zero behind the point. -/
theorem write_ofNat (hn : n < 2 ^ 53) :
    Json.realFormat.write (Double.ofNat n) = String.ofList (digits n ++ ['.', '0'])
      ∧ Json.realFormat.write (-Double.ofNat n) =
        String.ofList ('-' :: (digits n ++ ['.', '0'])) := by
  rcases Nat.eq_zero_or_pos n with rfl | hpos
  · exact ⟨rfl, rfl⟩
  · obtain ⟨hlog, hfull⟩ := Double.fullMantissa_shift hpos hn
    have hparts : Binary.ofDouble (Double.ofNat n)
        = .finite false (n * 2 ^ (52 - n.log2)) (-((52 - n.log2 : Nat) : Int)) := by
      rw [Double.ofNat, Double.ofNat_of_lt (by omega) hfull hn]
      exact Double.ofDouble_scaled hfull (by omega) (by omega)
    have hneg := Double.ofDouble_neg hparts
    obtain ⟨q, hpower, hvalue⟩ := shortest_whole Json.realFormat.tie (by omega) hfull
    have hlayout := layout_whole hpos (by omega) hpower hvalue
    constructor
    · rw [ShortestFormat.write, render, hparts]
      dsimp only
      rw [hlayout]
      rfl
    · rw [ShortestFormat.write, render, hneg]
      dsimp only
      rw [hlayout]
      rfl

end ExtractionBench.Decimal
