import ExtractionBench.Decimal.Notation
import ExtractionBench.Text.Quoted
/-!
# What can be wrong with a JSON text

A problem is a fault of the syntax, at a position of the text, or a value that does not have the
form that was asked for. A position counts lines from one, and bytes of the line.
-/

namespace ExtractionBench.Json

/-- Numbers in JSON texts: positional from `10 ^ -5` up to `10 ^ 16` with at least one place, else
with an exponent. -/
def realFormat : Decimal.ShortestFormat where
  tie := .toEven
  positional := some (-5, 16)
  pointZero := true

/-- The form of a value that was met where another was asked for. -/
inductive Found where
  /-- No value, `null`. -/
  | null
  /-- A truth value. -/
  | bool (b : Bool)
  /-- An integer. -/
  | integer (n : Int)
  /-- A real. -/
  | real (x : Double)
  /-- A string. -/
  | text (s : String)
  /-- A list. -/
  | sequence
  /-- An object. -/
  | map
  deriving DecidableEq, Repr

/-- The wording of a form. -/
def Found.describe : Found → String
  | .null => "null"
  | .bool b => "boolean `" ++ (if b then "true" else "false") ++ "`"
  | .integer n => "integer `" ++ toString n ++ "`"
  | .real x => "floating point `" ++ realFormat.write x ++ "`"
  | .text s => "string " ++ Text.quoted s
  | .sequence => "sequence"
  | .map => "map"

/-- The form that was asked for. -/
inductive Expected where
  /-- A number. -/
  | number
  /-- A string. -/
  | text
  /-- An object with arbitrary keys. -/
  | map
  /-- A list. -/
  | sequence
  /-- An object with the fields of a record. -/
  | record (name : String)
  deriving DecidableEq, Repr

/-- The wording of what was asked for. -/
def Expected.describe : Expected → String
  | .number => "f64"
  | .text => "a string"
  | .map => "a map"
  | .sequence => "a sequence"
  | .record name => "struct " ++ name

/-- What is wrong. -/
inductive Problem where
  /-- The text ends where a value should start or go on. -/
  | endInValue
  /-- The text ends in a list. -/
  | endInList
  /-- The text ends in an object. -/
  | endInObject
  /-- The text ends in a string. -/
  | endInString
  /-- A word that is not `null`, `true` or `false`. -/
  | badWord
  /-- No value starts here. -/
  | noValue
  /-- A list goes on without a comma. -/
  | noCommaInList
  /-- An object goes on without a comma. -/
  | noCommaInObject
  /-- A key without a colon. -/
  | noColon
  /-- A key that is not a string. -/
  | keyNotText
  /-- A comma before a closing bracket. -/
  | trailingComma
  /-- Text behind the value. -/
  | trailingText
  /-- A malformed number. -/
  | badNumber
  /-- A number beyond the range of doubles. -/
  | numberOutOfRange
  /-- A malformed escape in a string. -/
  | badEscape
  /-- A trailing surrogate without a leading one, or a leading one followed by something else than a
  trailing one. -/
  | unpairedSurrogate
  /-- A leading surrogate that no further escape follows. -/
  | unfinishedSurrogate
  /-- An unescaped control character in a string. -/
  | controlCharacter
  /-- A string that is not UTF-8. -/
  | badEncoding
  /-- Lists and objects nested too deep. -/
  | tooDeep
  /-- A value of another form than asked for. -/
  | wrongForm (found : Found) (expected : Expected)
  /-- A list with fewer items than the record has fields. -/
  | tooShort (size : Nat) (name : String) (fields : Nat)
  /-- A list with more items than the record has fields. -/
  | tooLong (size : Nat)
  /-- A record without one of its fields. -/
  | missingField (name : String)
  /-- A record with two values for a field. -/
  | repeatedField (name : String)
  /-- The text is not that of a file: there is a directory. -/
  | isDirectory
  deriving DecidableEq, Repr

/-- The wording of a problem. -/
def Problem.describe : Problem → String
  | .endInValue => "EOF while parsing a value"
  | .endInList => "EOF while parsing a list"
  | .endInObject => "EOF while parsing an object"
  | .endInString => "EOF while parsing a string"
  | .badWord => "expected ident"
  | .noValue => "expected value"
  | .noCommaInList => "expected `,` or `]`"
  | .noCommaInObject => "expected `,` or `\x7d`"
  | .noColon => "expected `:`"
  | .keyNotText => "key must be a string"
  | .trailingComma => "trailing comma"
  | .trailingText => "trailing characters"
  | .badNumber => "invalid number"
  | .numberOutOfRange => "number out of range"
  | .badEscape => "invalid escape"
  | .unpairedSurrogate => "lone leading surrogate in hex escape"
  | .unfinishedSurrogate => "unexpected end of hex escape"
  | .controlCharacter => "control character (\\u0000-\\u001F) found while parsing a string"
  | .badEncoding => "invalid unicode code point"
  | .tooDeep => "recursion limit exceeded"
  | .wrongForm found expected =>
    "invalid type: " ++ found.describe ++ ", expected " ++ expected.describe
  | .tooShort size name fields =>
    "invalid length " ++ toString size ++ ", expected struct " ++ name ++ " with " ++
      toString fields ++ " elements"
  | .tooLong size => "invalid length " ++ toString size ++ ", expected fewer elements in array"
  | .missingField name => "missing field `" ++ name ++ "`"
  | .repeatedField name => "duplicate field `" ++ name ++ "`"
  | .isDirectory => "Is a directory (os error 21)"

/-- A place in a text. -/
structure Position where
  /-- The line, counted from one. -/
  line : Nat
  /-- The bytes of the line so far. -/
  column : Nat
  deriving DecidableEq, Repr

/-- The place after some bytes. -/
def Position.after (bytes : List UInt8) : Position :=
  bytes.foldl (fun p b => if b = 10 then ⟨p.line + 1, 0⟩ else ⟨p.line, p.column + 1⟩) ⟨1, 0⟩

/-- A problem and where it was met; a value that has been read already has no place in a text. -/
structure Failure where
  /-- What is wrong. -/
  problem : Problem
  /-- Where it is. -/
  position : Option Position
  deriving DecidableEq, Repr

/-- The message of a failure. -/
def Failure.message (f : Failure) : String :=
  f.problem.describe ++
    match f.position with
    | some p => " at line " ++ toString p.line ++ " column " ++ toString p.column
    | none => ""

end ExtractionBench.Json
