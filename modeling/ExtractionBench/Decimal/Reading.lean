import ExtractionBench.Numeric.Double
/-!
# Reading a decimal

A decimal has an optional sign, digits with an optional point (at least one digit on either side of
it) and an optional exponent with a sign of its own; or it is `inf`, `infinity` or `nan` in any
case. Nothing else may stand before, between or after. The value is the nearest double: infinity
from the end of the range on, zero below half the least one. The sign counts for a NaN too.
-/

namespace ExtractionBench.Decimal

/-- The natural that a string of digits denotes. -/
def ofDigits (ds : List Char) : Nat := ds.foldl (fun n d => 10 * n + (d.toNat - '0'.toNat)) 0

/-- The double nearest to `n · 10 ^ power`. Far beyond the range of doubles no power is computed. -/
def nearest (n : Nat) (power : Int) : Double :=
  if n = 0 then .zero
  else
    let size := n.log2 + (power * 33219281).fdiv 10000000
    if 1100 < size then .infinity
    else if size < -1200 then .zero
    else .ofFloat (Float.ofScientific n (power < 0) power.natAbs)

/-- A sign in front of a text, and the text after it; `true` for a minus. -/
def readSign : List Char → Bool × List Char
  | '-' :: rest => (true, rest)
  | '+' :: rest => (false, rest)
  | cs => (false, cs)

/-- An exponent that reaches to the end of the text; zero if there is no text. -/
def readExponent? : List Char → Option Int
  | [] => some 0
  | e :: rest =>
    if e == 'e' || e == 'E' then
      let (negative, ds) := readSign rest
      if ds.isEmpty || ds.any (!·.isDigit) then none
      else some (if negative then -(ofDigits ds : Int) else ofDigits ds)
    else none

/-- A decimal without its sign. -/
def readMagnitude? (cs : List Char) : Option Double :=
  let word := cs.map Char.toLower
  if word = ['i', 'n', 'f'] || word = ['i', 'n', 'f', 'i', 'n', 'i', 't', 'y'] then some .infinity
  else if word = ['n', 'a', 'n'] then some .nan
  else
    let whole := cs.takeWhile Char.isDigit
    let afterWhole := cs.dropWhile Char.isDigit
    let (fraction, rest) := match afterWhole with
      | '.' :: more => (more.takeWhile Char.isDigit, more.dropWhile Char.isDigit)
      | _ => ([], afterWhole)
    if whole.isEmpty && fraction.isEmpty then none
    else (readExponent? rest).map fun e =>
      nearest (ofDigits (whole ++ fraction)) (e - fraction.length)

/-- The number that a text denotes, if it is a decimal. -/
def read? (cs : List Char) : Option Double :=
  let (negative, magnitude) := readSign cs
  (readMagnitude? magnitude).map fun x => if negative then -x else x

end ExtractionBench.Decimal
