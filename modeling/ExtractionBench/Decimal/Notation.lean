import ExtractionBench.Decimal.Shortest
/-!
# Written numbers

The layouts in which numbers are written: the shortest decimal, positionally or with an exponent; a
fixed number of places after the point; a fixed number of digits with an exponent.
-/

namespace ExtractionBench.Decimal

/-- The decimal digits of a natural. -/
def digits (n : Nat) : List Char := Nat.toDigits 10 n

/-- The whole part and the fraction digits of `d.significand · 10 ^ d.power`, written out. -/
def Scaled.parts (d : Scaled) : List Char × List Char :=
  let ds := digits d.significand
  let places := (-d.power).toNat
  if ds.length ≤ places then (['0'], List.replicate (places - ds.length) '0' ++ ds)
  else (ds.take (ds.length - places) ++ List.replicate d.power.toNat '0',
    ds.drop (ds.length - places))

/-- The power of ten of the first digit. -/
def Scaled.leading (d : Scaled) : Int := (digits d.significand).length - 1 + d.power

/-- A whole part, and a point before the fraction digits if there are any. -/
def withPoint (whole fraction : List Char) : List Char :=
  if fraction.isEmpty then whole else whole ++ '.' :: fraction

/-- The sign and the magnitude, for every value. -/
def signed (negative : Bool) (magnitude : List Char) : String :=
  String.ofList (if negative then '-' :: magnitude else magnitude)

/-- Writes a number with `magnitude` for its digits. An infinity is `inf`, what is not a number
`NaN`; zero keeps its sign. -/
def render (magnitude : Nat → Int → List Char) (x : Double) : String :=
  match Binary.ofDouble x with
  | .nan => "NaN"
  | .infinite negative => signed negative ['i', 'n', 'f']
  | .finite negative mantissa exponent => signed negative (magnitude mantissa exponent)

/-- How the shortest decimal is laid out. -/
structure ShortestFormat where
  /-- Which of two equally near decimals is taken. -/
  tie : Tie
  /-- The powers of ten of the first digit that are written positionally, from the first up to and
  without the second; all of them if there is no range. -/
  positional : Option (Int × Int)
  /-- Whether a whole number is written with `.0`. -/
  pointZero : Bool

/-- The layout of a decimal. With an exponent, the sign of the exponent is written. -/
def ShortestFormat.layout (format : ShortestFormat) (d : Scaled) : List Char :=
  let inRange := match format.positional with
    | none => true
    | some (low, high) => d.significand = 0 || (low ≤ d.leading && d.leading < high)
  if inRange then
    let (whole, fraction) := d.parts
    withPoint whole (if fraction.isEmpty && format.pointZero then ['0'] else fraction)
  else
    let ds := digits d.significand
    withPoint (ds.take 1) (ds.drop 1) ++
      'e' :: (if d.leading < 0 then '-' else '+') :: digits d.leading.natAbs

/-- The shortest decimal of a number, in a layout. -/
def ShortestFormat.write (format : ShortestFormat) (x : Double) : String :=
  render (fun mantissa exponent => format.layout (shortest format.tie mantissa exponent)) x

/-- Takes `mantissa · 2 ^ exponent` as a multiple of `10 ^ -places`, rounded to nearest with ties to
even. -/
def scaleTo (mantissa : Nat) (exponent places : Int) : Nat :=
  roundDiv .toEven (mantissa * twoTo exponent.toNat * tenTo places.toNat)
    (twoTo (-exponent).toNat * tenTo (-places).toNat)

/-- A number with a fixed count of places after the point. -/
def fixed (places : Nat) (x : Double) : String :=
  render (fun mantissa exponent =>
    let (whole, fraction) := (Scaled.mk (scaleTo mantissa exponent places) (-places)).parts
    withPoint whole fraction) x

/-- A number with one digit before the point, a fixed count of places after it, and an exponent.
Rounding may carry into a new first digit. -/
def scientific (places : Nat) (x : Double) : String :=
  render (fun mantissa exponent =>
    let top := leadingPower mantissa exponent
    let rounded := scaleTo mantissa exponent (places - top)
    let (count, power) :=
      if tenTo (places + 1) ≤ rounded then (rounded / 10, top + 1) else (rounded, top)
    let ds := (List.replicate places '0' ++ digits count)
    let kept := ds.drop (ds.length - (places + 1))
    withPoint (kept.take 1) (kept.drop 1) ++
      'e' :: ((if power < 0 then ['-'] else []) ++ digits power.natAbs)) x

/-- Numbers in messages: the shortest decimal, never with an exponent, and no point in a whole
number. -/
def plain : ShortestFormat where
  tie := .up
  positional := none
  pointZero := false

end ExtractionBench.Decimal
