import ExtractionBench.Numeric.Scalar
/-!
# Doubles

Binary floating-point numbers of 64 bits, each given by its bit pattern. Arithmetic on numbers is
that of `Float`. `Float` has a single NaN; a double keeps the sign of a NaN, because sorting puts a
negative NaN before every number and a positive one behind. An operation on a NaN gives that NaN.
-/

namespace ExtractionBench

/-- A floating-point number of 64 bits. Equality tells apart what `==` does not, such as the two
zeros; `==` is the comparison of numbers, and no NaN is equal to anything by it. -/
structure Double where
  /-- Sign, exponent and fraction. -/
  bits : UInt64
  deriving DecidableEq, Repr

namespace Double

/-- The value, which is all but the sign of a NaN. -/
def toFloat (x : Double) : Float := Float.ofBits x.bits

/-- The double of a value; a NaN becomes the positive one. -/
def ofFloat (x : Float) : Double := ⟨x.toBits⟩

/-- Zero, with the positive sign. -/
def zero : Double := ⟨0⟩

/-- The bit pattern that holds the sign alone. -/
def signBit : UInt64 := 0x8000000000000000

/-- The positive infinity. -/
def infinity : Double := ⟨0x7ff0000000000000⟩

/-- The positive NaN. -/
def nan : Double := ⟨0x7ff8000000000000⟩

/-- The double nearest to a natural. -/
def ofNat (n : Nat) : Double := ofFloat (Float.ofNat n)

/-- It is a NaN. -/
def isNaN (x : Double) : Bool := x.toFloat.isNaN

/-- It is one of the infinities. -/
def isInf (x : Double) : Bool := x.toFloat.isInf

/-- It is neither infinite nor a NaN. -/
def isFinite (x : Double) : Bool := x.toFloat.isFinite

/-- The opposite sign, also of a zero and of a NaN. -/
def neg (x : Double) : Double := ⟨x.bits ^^^ signBit⟩

/-- A function of one number; a NaN is left as it is. -/
def map (f : Float → Float) (x : Double) : Double := if x.isNaN then x else ofFloat (f x.toFloat)

/-- A function of two numbers; of NaNs the first is left. -/
def zipWith (f : Float → Float → Float) (a b : Double) : Double :=
  if a.isNaN then a else if b.isNaN then b else ofFloat (f a.toFloat b.toFloat)

instance instAdd : Add Double := ⟨zipWith (· + ·)⟩

instance instSub : Sub Double := ⟨zipWith (· - ·)⟩

instance instMul : Mul Double := ⟨zipWith (· * ·)⟩

instance instDiv : Div Double := ⟨zipWith (· / ·)⟩

instance instNeg : Neg Double := ⟨neg⟩

instance instNatCast : NatCast Double := ⟨ofNat⟩

instance instBEq : BEq Double := ⟨fun a b => a.toFloat == b.toFloat⟩

instance instLT : LT Double := ⟨fun a b => a.toFloat < b.toFloat⟩

instance instLE : LE Double := ⟨fun a b => a.toFloat ≤ b.toFloat⟩

instance instDecidableLT : DecidableLT Double :=
  fun a b => inferInstanceAs (Decidable (a.toFloat < b.toFloat))

instance instDecidableLE : DecidableLE Double :=
  fun a b => inferInstanceAs (Decidable (a.toFloat ≤ b.toFloat))

/-- The place of a double in the total order `-NaN < -∞ < … < -0.0 < 0.0 < … < ∞ < NaN`: the bit
pattern without its sign, counted downwards from `-1` for a double with the sign bit set. -/
def rank (x : Double) : Int :=
  let bits := x.bits.toNat
  if bits < twoTo 63 then (bits : Int) else (twoTo 63 : Int) - 1 - (bits : Int)

/-- Two doubles of one rank are the same: the order tells all bit patterns apart. -/
theorem rank_injective {x y : Double} (h : x.rank = y.rank) : x = y := by
  have bits : x.bits.toNat = y.bits.toNat := by
    simp only [rank] at h
    split at h <;> split at h <;> omega
  cases x
  cases y
  simpa [UInt64.toNat_inj] using bits

/-- Sums start from `-0.0`, the neutral element of floating-point addition. -/
instance instScalar : Scalar Double where
  decidableLT := inferInstance
  decidableLE := inferInstance
  isFinite := isFinite
  isNaN := isNaN
  totalLe a b := decide (a.rank ≤ b.rank)
  emptySum := -zero
  emptyLeast := infinity
  emptyGreatest := -infinity
  floor x := x.toFloat.floor.toInt64.toInt
  ceil x := x.toFloat.ceil.toInt64.toInt
  ceilWord x := x.toFloat.ceil.toUInt64

instance instElementary : Elementary Double where
  ln := map Float.log
  exp := map Float.exp
  sqrt := map Float.sqrt

end Double

end ExtractionBench
