import ExtractionBench.Json.Token
/-!
# Reading a JSON value

`Json.read?` turns a text into a value. Lists and objects may be nested 127 deep.
-/

namespace ExtractionBench.Json

/-- How deep lists and objects may be nested. -/
def depthLimit : Nat := 127

/-- Reads a value; `nested` reads what stands behind an opening bracket, which it is given. -/
def readValueWith (nested : UInt8 → Reader Json) (input : List UInt8) :
    Except Stop (Json × List UInt8) :=
  match skipSpace input with
  | [] => stopAt .endInValue []
  | b :: rest =>
    if b = byte 'n' then (readWord ['u', 'l', 'l'] rest).map fun r => (.null, r.2)
    else if b = byte 't' then (readWord ['r', 'u', 'e'] rest).map fun r => (.bool true, r.2)
    else if b = byte 'f' then (readWord ['a', 'l', 's', 'e'] rest).map fun r => (.bool false, r.2)
    else if b = byte '-' then (readNumber true rest).map fun r => (.number r.1, r.2)
    else if isDigit b then (readNumber false (b :: rest)).map fun r => (.number r.1, r.2)
    else if b = byte '"' then (readText rest).map fun r => (.text r.1, r.2)
    else if b = byte '[' || b = byte '\x7b' then nested b rest
    else stopAt .noValue (b :: rest)

/-- Reads a list or an object behind its opening bracket, with `value` for the values in it, of
which there are fewer than `fuel`. -/
def readNested (fuel : Nat) (value : Reader Json) (opening : UInt8) (input : List UInt8) :
    Except Stop (Json × List UInt8) :=
  if opening = byte '[' then do
    let item (items : List Json) : Reader (List Json) := fun input => do
      let (v, rest) ← value input
      return (v :: items, rest)
    let (items, rest) ← foldItems .read item fuel true [] input
    return (.array items.reverse, rest)
  else do
    let member (members : List (String × Json)) : Reader (List (String × Json)) := fun input => do
      let (key, rest) ← readText input
      let (_, rest) ← readColon rest
      let (v, rest) ← value rest
      return ((key, v) :: members, rest)
    let (members, rest) ← foldMembers .read member fuel true [] input
    return (.object members.reverse, rest)

/-- Reads a value, in which lists and objects are nested at most `depth` deep, of a text with fewer
bytes than `fuel`. -/
def readValue (fuel : Nat) : (depth : Nat) → Reader Json
  | 0 => readValueWith fun b rest => stopAt .tooDeep (b :: rest)
  | depth + 1 => readValueWith (readNested fuel (readValue fuel depth))

/-- The value that a text in memory holds. -/
def read? (text : String) : Except Failure Json :=
  let bytes := text.toUTF8.toList
  let whole : Except Stop Json := do
    let (v, rest) ← readValue (bytes.length + 1) depthLimit bytes
    let _ ← readEnd rest
    return v
  whole.mapError fun stop => stop.failure .memory bytes

end ExtractionBench.Json
