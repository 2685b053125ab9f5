import ExtractionBench.Json.Basic
import ExtractionBench.Json.Problem
/-!
# Decoding JSON values

What is made of a value: a number, a string, a list, an object, or the complaint that it has another
form. A record is an object that has a member for each field, in any order, with other members left
aside; or a list that has exactly the fields in order.
-/

namespace ExtractionBench.Json

/-- The form of a value. -/
def found : Json → Found
  | .null => .null
  | .bool b => .bool b
  | .number (.integer n) => .integer n
  | .number (.real x) => .real x
  | .text s => .text s
  | .array _ => .sequence
  | .object _ => .map

/-- The value where another form was asked for. -/
def refuse {α : Type} (v : Json) (expected : Expected) : Except Problem α :=
  .error (.wrongForm v.found expected)

/-- A number as a double. One that no finite double is near is refused. -/
def asDouble : Json → Except Problem Double
  | .number n => if n.toDouble.isFinite then .ok n.toDouble else .error .numberOutOfRange
  | v => v.refuse .number

/-- A string. -/
def asText : Json → Except Problem String
  | .text s => .ok s
  | v => v.refuse .text

/-- A string or `null`. -/
def asText? : Json → Except Problem (Option String)
  | .null => .ok none
  | v => v.asText.map some

/-- The members of an object that count. -/
def asMembers : Json → Except Problem (List (String × Json))
  | .object members => .ok (merge members)
  | v => v.refuse .map

/-- A list of strings. -/
def asTexts : Json → Except Problem (List String)
  | .array items => items.mapM asText
  | v => v.refuse .sequence

/-- Decodes the members of a record one by one. -/
def readMembers {σ : Type} (field : σ → String → Json → Except Problem σ) (start : σ)
    (members : List (String × Json)) : Except Problem σ :=
  members.foldlM (fun acc m => field acc m.1 m.2) start

/-- A field that has been found, or the complaint that it is missing. -/
def require {α : Type} (name : String) : Option α → Except Problem α
  | some x => .ok x
  | none => .error (.missingField name)

end ExtractionBench.Json
