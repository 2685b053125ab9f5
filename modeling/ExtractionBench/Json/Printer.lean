import ExtractionBench.Json.Basic
import ExtractionBench.Json.Problem
/-!
# Writing JSON

A value on one line (`compact`), or spread over lines with two spaces for each level (`pretty`). A
string escapes the quote, the backslash and the control characters below the space; everything else
stands for itself. An empty list or object is a pair of brackets.
-/

namespace ExtractionBench.Json

/-- One character of a string. -/
def escapeChar (c : Char) : List Char :=
  match c with
  | '"' => ['\\', '"']
  | '\\' => ['\\', '\\']
  | '\x08' => ['\\', 'b']
  | '\x0c' => ['\\', 'f']
  | '\n' => ['\\', 'n']
  | '\r' => ['\\', 'r']
  | '\t' => ['\\', 't']
  | c =>
    if c.toNat < 0x20 then
      ['\\', 'u', '0', '0', Nat.digitChar (c.toNat / 16), Nat.digitChar (c.toNat % 16)] else [c]

/-- A string in quotes. -/
def writeText (s : String) : List Char := '"' :: s.toList.flatMap escapeChar ++ ['"']

/-- A number. -/
def writeNumber : Number → List Char
  | .integer n => (toString n).toList
  | .real x => (realFormat.write x).toList

/-- A word for a truth value. -/
def writeBool (b : Bool) : List Char :=
  if b then ['t', 'r', 'u', 'e'] else ['f', 'a', 'l', 's', 'e']

/-- The word for no value. -/
def writeNull : List Char := ['n', 'u', 'l', 'l']

/-- Layout of lists and objects: what separates the items at a depth, and what stands after a
colon. -/
structure Layout where
  /-- What stands before each item and, one level further out, before the closing bracket. -/
  lineStart : Nat → List Char
  /-- What stands between a key and its value. -/
  colon : List Char

/-- Everything on one line. -/
def Layout.compact : Layout where
  lineStart _ := []
  colon := [':']

/-- Each item on a line of its own. -/
def Layout.pretty : Layout where
  lineStart depth := '\n' :: List.replicate (2 * depth) ' '
  colon := [':', ' ']

/-- Items that have been written, between brackets. -/
def bracket (layout : Layout) (depth : Nat) (opening closing : Char)
    (items : List (List Char)) : List Char :=
  match items with
  | [] => [opening, closing]
  | _ =>
    opening :: [','].intercalate (items.map fun item => layout.lineStart (depth + 1) ++ item)
      ++ layout.lineStart depth ++ [closing]

mutual

/-- A value at a depth. -/
def write (layout : Layout) (depth : Nat) : Json → List Char
  | .null => writeNull
  | .bool b => writeBool b
  | .number n => writeNumber n
  | .text s => writeText s
  | .array items => bracket layout depth '[' ']' (writeItems layout (depth + 1) items)
  | .object members => bracket layout depth '{' '}' (writeMembers layout (depth + 1) members)

/-- The items of a list, one by one. -/
def writeItems (layout : Layout) (depth : Nat) : List Json → List (List Char)
  | [] => []
  | v :: rest => write layout depth v :: writeItems layout depth rest

/-- The members of an object, one by one. -/
def writeMembers (layout : Layout) (depth : Nat) : List (String × Json) → List (List Char)
  | [] => []
  | (key, v) :: rest =>
    (writeText key ++ layout.colon ++ write layout depth v) :: writeMembers layout depth rest

end

/-- The value on one line. -/
def compact (v : Json) : String := String.ofList (write .compact 0 v)

/-- The value over several lines. -/
def pretty (v : Json) : String := String.ofList (write .pretty 0 v)

end ExtractionBench.Json
