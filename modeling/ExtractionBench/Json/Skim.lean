import ExtractionBench.Json.Token
/-!
# Skimming a JSON value

A value that nobody asked for is read over. Its syntax is checked, but strings may hold unpaired
surrogates and bytes that are not UTF-8, numbers may lie beyond the range of doubles, and lists and
objects may be nested to any depth.
-/

namespace ExtractionBench.Json

/-- Reads over the digits of an exponent behind an `e`. -/
def skimExponent (input : List UInt8) : Except Stop (Unit × List UInt8) :=
  let input := match input with
    | b :: rest => if b = byte '-' || b = byte '+' then rest else input
    | [] => []
  match input with
  | [] => stopAfter .badNumber []
  | b :: rest => if isDigit b then .ok ((), rest.dropWhile isDigit) else stopAfter .badNumber rest

/-- Reads over an exponent, if there is one. -/
def skimScale (input : List UInt8) : Except Stop (Unit × List UInt8) :=
  match input with
  | b :: rest => if b = byte 'e' || b = byte 'E' then skimExponent rest else .ok ((), input)
  | [] => .ok ((), [])

/-- Reads over a number after its sign. -/
def skimNumber (input : List UInt8) : Except Stop (Unit × List UInt8) :=
  match input with
  | [] => stopAfter .badNumber []
  | b :: rest =>
    if !isDigit b then stopAfter .badNumber rest
    else if b = byte '0' && startsWithDigit rest then stopAt .badNumber rest
    else
      match rest.dropWhile isDigit with
      | c :: more =>
        if c = byte '.' then
          if startsWithDigit more then skimScale (more.dropWhile isDigit)
            else stopAt .badNumber more
        else skimScale (c :: more)
      | [] => .ok ((), [])

/-- Reads over a value; `nested` reads over what stands behind an opening bracket, which it is
given. -/
def skimValueWith (nested : UInt8 → Reader Unit) (input : List UInt8) :
    Except Stop (Unit × List UInt8) :=
  match skipSpace input with
  | [] => stopAt .endInValue []
  | b :: rest =>
    if b = byte 'n' then readWord ['u', 'l', 'l'] rest
    else if b = byte 't' then readWord ['r', 'u', 'e'] rest
    else if b = byte 'f' then readWord ['a', 'l', 's', 'e'] rest
    else if b = byte '-' then skimNumber rest
    else if isDigit b then skimNumber (b :: rest)
    else if b = byte '"' then skimText rest
    else if b = byte '[' || b = byte '\x7b' then nested b rest
    else stopAt .noValue (b :: rest)

/-- Reads over a list or an object behind its opening bracket, with `value` for the values in it, of
which there are fewer than `fuel`. -/
def skimNested (fuel : Nat) (value : Reader Unit) (opening : UInt8) (input : List UInt8) :
    Except Stop (Unit × List UInt8) :=
  if opening = byte '[' then foldItems .skim (fun _ => value) fuel true () input
  else
    let member (_ : Unit) : Reader Unit := fun input => do
      let (_, rest) ← skimText input
      let (_, rest) ← readColon rest
      value rest
    foldMembers .skim member fuel true () input

/-- Reads over a value in which lists and objects are nested at most `depth` deep. -/
def skimWithin (fuel : Nat) : (depth : Nat) → Reader Unit
  | 0 => skimValueWith fun b rest => stopAt .tooDeep (b :: rest)
  | depth + 1 => skimValueWith (skimNested fuel (skimWithin fuel depth))

/-- Reads over a value of a text with fewer bytes than `fuel`. It is not nested deeper than it has
bytes. -/
def skimValue (fuel : Nat) : Reader Unit := skimWithin fuel fuel

end ExtractionBench.Json
