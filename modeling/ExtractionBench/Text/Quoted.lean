import ExtractionBench.Text.Hidden
/-!
# Quoted text

Text between double quotes, as messages show names and paths. A quote and a backslash are escaped by
a backslash; tab, line feed, carriage return and NUL have letters; every other character that does
not show on its own is spelled by its number, `\u{301}`. An apostrophe stands for itself.
-/

namespace ExtractionBench.Text

/-- One character between the quotes. -/
def quoteChar (c : Char) : List Char :=
  match c with
  | '"' => ['\\', '"']
  | '\\' => ['\\', '\\']
  | '\n' => ['\\', 'n']
  | '\r' => ['\\', 'r']
  | '\t' => ['\\', 't']
  | '\x00' => ['\\', '0']
  | c => if isHidden c then ['\\', 'u', '{'] ++ Nat.toDigits 16 c.toNat ++ ['}'] else [c]

/-- The text in quotes. -/
def quoted (s : String) : String :=
  String.ofList ('"' :: s.toList.flatMap quoteChar ++ ['"'])

end ExtractionBench.Text
