import ExtractionBench.Json.Decode
import ExtractionBench.Json.Skim
import ExtractionBench.Measurement.Basic
/-!
# Stored results

A result in a JSON file: an object with the five fields of a result in any order, among other
members whose values are skimmed only; or a list of exactly the five fields in order. The file is
read byte by byte, and a value is judged when it is met, so a text with several faults shows the
first.
-/

namespace ExtractionBench.Measurement

open Json

/-- The fields of a stored result. -/
inductive Field where
  /-- The name of the benchmark. -/
  | name
  /-- The name of the extractor. -/
  | extractor
  /-- The tree cost. -/
  | tree
  /-- The dag cost. -/
  | dag
  /-- The runtime. -/
  | micros
  deriving DecidableEq, Repr

/-- The key of a field. -/
def Field.key : Field → String
  | .name => "name"
  | .extractor => "extractor"
  | .tree => "tree"
  | .dag => "dag"
  | .micros => "micros"

/-- The fields in order. -/
def Field.all : List Field := [.name, .extractor, .tree, .dag, .micros]

/-- The field with a key. -/
def Field.ofKey? (key : String) : Option Field := Field.all.find? (·.key == key)

/-- The name that a result goes by in complaints about its form. -/
def recordName : String := "BenchmarkResult"

/-- The fields that have been read. -/
structure Fields where
  /-- The name of the benchmark. -/
  name : Option String
  /-- The name of the extractor. -/
  extractor : Option String
  /-- The tree cost. -/
  tree : Option Double
  /-- The dag cost. -/
  dag : Option Double
  /-- The runtime. -/
  micros : Option Double
  deriving Repr

/-- No field. -/
def Fields.none : Fields := ⟨.none, .none, .none, .none, .none⟩

/-- The field has been read. -/
def Fields.has (fs : Fields) : Field → Bool
  | .name => fs.name.isSome
  | .extractor => fs.extractor.isSome
  | .tree => fs.tree.isSome
  | .dag => fs.dag.isSome
  | .micros => fs.micros.isSome

/-- Refuses a value of another form than asked for, behind the white space before it. A list or an
object is refused at its bracket, any other value behind its end. -/
def refuseValue {α : Type} (expected : Expected) (input : List UInt8) : Except Stop α :=
  match input with
  | [] => stopAt .endInValue []
  | b :: rest =>
    let refuse (found : Found) : Problem := .wrongForm found expected
    if b = byte 'n' then do
      let (_, rest) ← readWord ['u', 'l', 'l'] rest
      stopAfter (refuse .null) rest
    else if b = byte 't' then do
      let (_, rest) ← readWord ['r', 'u', 'e'] rest
      stopAfter (refuse (.bool true)) rest
    else if b = byte 'f' then do
      let (_, rest) ← readWord ['a', 'l', 's', 'e'] rest
      stopAfter (refuse (.bool false)) rest
    else if b = byte '-' || isDigit b then do
      let (n, rest) ← if b = byte '-' then readNumber true rest else readNumber false (b :: rest)
      .error ⟨refuse (Json.found (.number n)), rest, .terminator⟩
    else if b = byte '"' then do
      let (s, rest) ← readText rest
      stopAfter (refuse (.text s)) rest
    else if b = byte '[' then stopAt (refuse .sequence) input
    else if b = byte '\x7b' then stopAt (refuse .map) input
    else stopAt .noValue input

/-- Reads a number. -/
def readDouble (input : List UInt8) : Except Stop (Double × List UInt8) :=
  match skipSpace input with
  | [] => stopAt .endInValue []
  | b :: rest =>
    if b = byte '-' then (readNumber true rest).map fun r => (r.1.toDouble, r.2)
    else if isDigit b then (readNumber false (b :: rest)).map fun r => (r.1.toDouble, r.2)
    else refuseValue .number (b :: rest)

/-- Reads a string. -/
def readString (input : List UInt8) : Except Stop (String × List UInt8) :=
  match skipSpace input with
  | [] => stopAt .endInValue []
  | b :: rest => if b = byte '"' then readText rest else refuseValue .text (b :: rest)

/-- Reads the value of a field. -/
def readField (fs : Fields) (field : Field) (input : List UInt8) :
    Except Stop (Fields × List UInt8) :=
  match field with
  | .name => (readString input).map fun r => ({ fs with name := some r.1 }, r.2)
  | .extractor => (readString input).map fun r => ({ fs with extractor := some r.1 }, r.2)
  | .tree => (readDouble input).map fun r => ({ fs with tree := some r.1 }, r.2)
  | .dag => (readDouble input).map fun r => ({ fs with dag := some r.1 }, r.2)
  | .micros => (readDouble input).map fun r => ({ fs with micros := some r.1 }, r.2)

/-- Reads a member of the object behind the opening quote of its key, in a text with fewer bytes
than `fuel`. A field that has a value already is refused before the colon. -/
def readMember (fuel : Nat) (fs : Fields) : Reader Fields := fun input => do
  let (key, rest) ← readText input
  match Field.ofKey? key with
  | some field =>
    if fs.has field then stopAt (.repeatedField key) (skipSpace rest)
    else
      let (_, rest) ← readColon rest
      readField fs field rest
  | none =>
    let (_, rest) ← readColon rest
    let (_, rest) ← skimValue fuel rest
    return (fs, rest)

/-- Reads the given fields as the items of a list behind its opening bracket. -/
def readList : (fields : List Field) → (first : Bool) → Fields → Reader Fields
  | [], _, fs, input =>
    match skipSpace input with
    | [] => stopAt .endInList []
    | b :: rest =>
      if b = byte ']' then .ok (fs, rest)
      else if b = byte ',' then
        match skipSpace rest with
        | [] => stopAt .trailingText []
        | c :: more =>
          if c = byte ']' then stopAt .trailingComma (c :: more)
          else stopAt .trailingText (c :: more)
      else stopAt .trailingText (b :: rest)
  | field :: more, first, fs, input => do
    let (present, rest) ← nextItem .read first input
    if present then
      let (fs, rest) ← readField fs field rest
      readList more false fs rest
    else
      stopAfter (.tooShort (Field.all.length - (more.length + 1)) recordName Field.all.length) rest

/-- A field of the finished object, behind its closing brace. -/
def demand {α : Type} (field : Field) (value : Option α) (rest : List UInt8) : Except Stop α :=
  match value with
  | some x => .ok x
  | none => stopAfter (.missingField field.key) rest

/-- The result that complete fields make up, or the first field that is missing. -/
def Fields.complete (fs : Fields) (path : Path) (rest : List UInt8) :
    Except Stop (Measurement Double) := do
  let name ← demand .name fs.name rest
  let extractor ← demand .extractor fs.extractor rest
  let tree ← demand .tree fs.tree rest
  let dag ← demand .dag fs.dag rest
  let micros ← demand .micros fs.micros rest
  return { name, extractor, tree, dag, micros, file := path, directory := path.parent }

/-- Reads a result from a text with fewer bytes than `fuel`. -/
def readResult (fuel : Nat) (path : Path) (input : List UInt8) :
    Except Stop (Measurement Double × List UInt8) :=
  match skipSpace input with
  | [] => stopAt .endInValue []
  | b :: rest =>
    if b = byte '\x7b' then do
      let (fs, rest) ← foldMembers .read (readMember fuel) fuel true Fields.none rest
      let m ← fs.complete path rest
      return (m, rest)
    else if b = byte '[' then do
      let (fs, rest) ← readList Field.all true Fields.none rest
      let m ← fs.complete path rest
      return (m, rest)
    else refuseValue (.record recordName) (b :: rest)

/-- The result that the bytes of a file hold. -/
def ofJson (path : Path) (bytes : List UInt8) : Except Json.Failure (Measurement Double) :=
  let whole : Except Stop (Measurement Double) := do
    let (m, rest) ← readResult (bytes.length + 1) path bytes
    let _ ← readEnd rest
    return m
  whole.mapError fun stop => stop.failure .stream bytes

end ExtractionBench.Measurement
