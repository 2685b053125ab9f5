import ExtractionBench.Decimal.Reading
import ExtractionBench.Json.Basic
import ExtractionBench.Json.Problem
import ExtractionBench.Text.Encoding
/-!
# The tokens of a JSON text

A text is read as a list of bytes, from the front: a reader takes what it reads and leaves the rest.
Where it meets a problem it tells how much was left (`Stop`), so that the position of the problem is
a function of the whole text.
-/

namespace ExtractionBench.Json

/-- What has been looked at beyond the bytes that were read when a problem is met. -/
inductive Ahead where
  /-- Nothing. -/
  | nothing
  /-- The next byte, which shows the problem. -/
  | culprit
  /-- The next byte, which only shows that a number has ended. A text that is fetched byte by byte
  has fetched it; a text in memory has not moved past the number. -/
  | terminator
  deriving DecidableEq, Repr

/-- A problem met while reading. -/
structure Stop where
  /-- What is wrong. -/
  problem : Problem
  /-- The bytes that were not read. -/
  rest : List UInt8
  /-- What has been looked at beyond. -/
  ahead : Ahead

/-- How a text reaches the reader, which decides where a position stands after a number. -/
inductive Source where
  /-- Byte by byte from a file. -/
  | stream
  /-- As a whole. -/
  | memory
  deriving DecidableEq, Repr

/-- The failure that a stop in a text amounts to. -/
def Stop.failure (stop : Stop) (source : Source) (text : List UInt8) : Failure :=
  let ahead := match stop.ahead with
    | .nothing => 0
    | .culprit => 1
    | .terminator => if source = .stream then 1 else 0
  ⟨stop.problem, some (Position.after (text.take (text.length - (stop.rest.length - ahead))))⟩

/-- Reads from the front of a text. -/
abbrev Reader (α : Type) := List UInt8 → Except Stop (α × List UInt8)

/-- A problem with the bytes just read. -/
def stopAfter {α : Type} (problem : Problem) (rest : List UInt8) : Except Stop α :=
  .error ⟨problem, rest, .nothing⟩

/-- A problem that the next byte shows, or the end of the text. -/
def stopAt {α : Type} (problem : Problem) (rest : List UInt8) : Except Stop α :=
  .error ⟨problem, rest, .culprit⟩

/-- An ASCII character as a byte. -/
abbrev byte (c : Char) : UInt8 := c.toNat.toUInt8

/-- The white space of JSON. -/
def isSpace (b : UInt8) : Bool :=
  b == byte ' ' || b == byte '\n' || b == byte '\t' || b == byte '\r'

/-- The text without the white space it starts with. -/
def skipSpace (input : List UInt8) : List UInt8 := input.dropWhile isSpace

/-- Reads the letters of a word. -/
def readWord : List Char → Reader Unit
  | [], rest => .ok ((), rest)
  | _ :: _, [] => stopAfter .endInValue []
  | c :: more, b :: rest => if b = byte c then readWord more rest else stopAfter .badWord rest

/-! ## Numbers -/

/-- The byte is a decimal digit. -/
def isDigit (b : UInt8) : Bool := byte '0' ≤ b && b ≤ byte '9'

/-- The text starts with a digit. -/
def startsWithDigit : List UInt8 → Bool
  | b :: _ => isDigit b
  | [] => false

/-- The value of a digit. -/
def digitValue (b : UInt8) : Nat := b.toNat - (byte '0').toNat

/-- Reads digits onto `n` as long as the number stays below `bound`; with the number comes the count
of the digits. -/
def accumulate (bound n : Nat) : List UInt8 → Nat × Nat × List UInt8
  | [] => (n, 0, [])
  | b :: rest =>
    if isDigit b && 10 * n + digitValue b < bound then
      let (value, count, after) := accumulate bound (10 * n + digitValue b) rest
      (value, count + 1, after)
    else (n, 0, b :: rest)

/-- Significands have 64 bits; digits beyond that are not kept. -/
def significandBound : Nat := twoTo 64

/-- Exponents have 31 bits. -/
def exponentBound : Nat := twoTo 31

/-- The double nearest to `10 ^ k`. -/
def powerOfTen (k : Nat) : Double := Decimal.nearest 1 k

/-- Computes `f / 10 ^ k` in steps of at most `308` powers, each rounded. -/
def shrink (f : Double) (k : Nat) : Double :=
  if k ≤ 308 then f / powerOfTen k
  else if f == .zero then f
  else shrink (f / powerOfTen 308) (k - 308)
termination_by k

/-- Computes `significand · 10 ^ exponent`, rounding the significand before it is scaled; none
beyond the range of doubles. -/
def compose (significand : Nat) (exponent : Int) : Option Double :=
  let f := Double.ofNat significand
  if exponent < 0 then some (shrink f exponent.natAbs)
  else if 308 < exponent then (if significand = 0 then some f else none)
  else
    let g := f * powerOfTen exponent.natAbs
    if g.isInf then none else some g

/-- The real that the parts of a number make up, after its last character. -/
def realOf (negative : Bool) (significand : Nat) (exponent : Int) : Reader Number := fun rest =>
  match compose significand exponent with
  | some x => .ok (.real (if negative then -x else x), rest)
  | none => .error ⟨.numberOutOfRange, rest, .terminator⟩

/-- Reads the exponent behind an `e`. -/
def readExponent (negative : Bool) (significand : Nat) (start : Int) (input : List UInt8) :
    Except Stop (Number × List UInt8) :=
  let (down, input) := match input with
    | b :: rest =>
      if b = byte '-' then (true, rest) else if b = byte '+' then (false, rest) else (false, input)
    | [] => (false, [])
  match input with
  | [] => stopAfter .endInValue []
  | b :: rest =>
    if isDigit b then
      let (value, _, after) := accumulate exponentBound (digitValue b) rest
      if startsWithDigit after then
        if significand ≠ 0 && !down then stopAfter .numberOutOfRange (after.drop 1)
        else .ok (.real (if negative then -.zero else .zero), after.dropWhile isDigit)
      else realOf negative significand (if down then start - value else start + value) after
    else stopAfter .badNumber rest

/-- Reads what follows the digits of a number: an exponent, or nothing. -/
def readScale (negative : Bool) (significand : Nat) (exponent : Int) (input : List UInt8) :
    Except Stop (Number × List UInt8) :=
  match input with
  | b :: rest =>
    if b = byte 'e' || b = byte 'E' then readExponent negative significand exponent rest
    else realOf negative significand exponent input
  | [] => realOf negative significand exponent []

/-- Reads the digits behind a point. Once the significand is full the remaining digits are
dropped. -/
def readFraction (negative : Bool) (significand : Nat) (exponent : Int) (input : List UInt8) :
    Except Stop (Number × List UInt8) :=
  let (value, count, after) := accumulate significandBound significand input
  if startsWithDigit after then
    readScale negative value (exponent - count) (after.dropWhile isDigit)
  else if count = 0 then stopAt (if after.isEmpty then .endInValue else .badNumber) after
  else readScale negative value (exponent - count) after

/-- A number without point and exponent. Below the range of 64-bit integers it is a real, and so is
`-0`. -/
def wholeNumber (negative : Bool) (n : Nat) : Number :=
  if !negative then .integer n
  else if n = 0 || twoTo 63 < n then .real (-(Double.ofNat n))
  else .integer (-n)

/-- Reads a number after its sign. Once the significand is full each further digit before the point
counts as a power of ten. -/
def readNumber (negative : Bool) (input : List UInt8) : Except Stop (Number × List UInt8) :=
  match input with
  | [] => stopAfter .endInValue []
  | b :: rest =>
    if !isDigit b then stopAfter .badNumber rest
    else if b = byte '0' && startsWithDigit rest then stopAt .badNumber rest
    else
      let (n, _, after) := accumulate significandBound (digitValue b) rest
      let beyond := after.takeWhile isDigit
      let exponent : Int := beyond.length
      match after.dropWhile isDigit with
      | c :: more =>
        if c = byte '.' then readFraction negative n exponent more
        else if c = byte 'e' || c = byte 'E' then readExponent negative n exponent more
        else if beyond.isEmpty then .ok (wholeNumber negative n, c :: more)
        else realOf negative n exponent (c :: more)
      | [] => if beyond.isEmpty then .ok (wholeNumber negative n, [])
        else realOf negative n exponent []

/-! ## Strings -/

/-- The value of a hexadecimal digit. -/
def hexValue? (b : UInt8) : Option Nat :=
  if isDigit b then some (digitValue b)
  else if byte 'a' ≤ b && b ≤ byte 'f' then some (b.toNat - (byte 'a').toNat + 10)
  else if byte 'A' ≤ b && b ≤ byte 'F' then some (b.toNat - (byte 'A').toNat + 10)
  else none

/-- The character that a one-letter escape stands for. -/
def shortEscape? (b : UInt8) : Option Char :=
  if b = byte '"' then some '"'
  else if b = byte '\\' then some '\\'
  else if b = byte '/' then some '/'
  else if b = byte 'b' then some '\x08'
  else if b = byte 'f' then some '\x0c'
  else if b = byte 'n' then some '\n'
  else if b = byte 'r' then some '\r'
  else if b = byte 't' then some '\t'
  else none

/-- Where a string is read. A numeric escape keeps the leading surrogate before it, if there is one,
and collects its four digits; its value is lost as soon as one of them is no digit. -/
inductive TextState where
  /-- Between characters. -/
  | plain
  /-- Behind a backslash. -/
  | escaped
  /-- Behind `\u`, with so many digits to come. -/
  | hex (leading : Option Nat) (missing : Nat) (value : Option Nat)
  /-- Behind a leading surrogate. -/
  | paired (leading : Nat)
  /-- Behind a leading surrogate and a backslash. -/
  | pairedEscape (leading : Nat)
  deriving DecidableEq, Repr

/-- What one byte does to a string. -/
inductive TextStep where
  /-- The string goes on, with some bytes more. -/
  | more (state : TextState) (bytes : List UInt8)
  /-- The string ends. -/
  | close
  /-- The byte does not fit. -/
  | stop (problem : Problem)
  deriving DecidableEq, Repr

/-- A numeric escape is complete. A trailing surrogate must follow a leading one, and nothing else
may; an unpaired one is let through if the string is only skimmed. -/
def closeHex (skims : Bool) (leading : Option Nat) (n : Nat) : TextStep :=
  let trails := 0xdc00 ≤ n && n ≤ 0xdfff
  let leads := 0xd800 ≤ n && n ≤ 0xdbff
  if skims then .more .plain []
  else
    match leading with
    | some high =>
      if trails then
        .more .plain
          (String.utf8EncodeChar (Char.ofNat ((high - 0xd800) * 0x400 + (n - 0xdc00) + 0x10000)))
      else .stop .unpairedSurrogate
    | none =>
      if trails then .stop .unpairedSurrogate
      else if leads then .more (.paired n) []
      else .more .plain (String.utf8EncodeChar (Char.ofNat n))

/-- One digit of a numeric escape. -/
def stepHex (skims : Bool) (leading : Option Nat) (missing : Nat) (value : Option Nat)
    (b : UInt8) : TextStep :=
  let value := value.bind fun n => (hexValue? b).map fun d => 16 * n + d
  if 1 < missing then .more (.hex leading (missing - 1) value) []
  else
    match value with
    | some n => closeHex skims leading n
    | none => .stop .badEscape

/-- One byte of a string. -/
def TextState.step (skims : Bool) (state : TextState) (b : UInt8) : TextStep :=
  match state with
  | .plain =>
    if b = byte '"' then .close
    else if b = byte '\\' then .more .escaped []
    else if b < 0x20 then .stop .controlCharacter
    else .more .plain [b]
  | .escaped =>
    if b = byte 'u' then .more (.hex none 4 (some 0)) []
    else match shortEscape? b with
      | some c => .more .plain (String.utf8EncodeChar c)
      | none => .stop .badEscape
  | .hex leading missing value => stepHex skims leading missing value b
  | .paired leading =>
    if b = byte '\\' then .more (.pairedEscape leading) [] else .stop .unfinishedSurrogate
  | .pairedEscape leading =>
    if b = byte 'u' then .more (.hex (some leading) 4 (some 0)) [] else .stop .unfinishedSurrogate

/-- Reads the bytes of a string up to and with its closing quote; `before` holds those read already,
the last one first. -/
def readTextFrom (skims : Bool) (state : TextState) (before : List UInt8) : Reader (List UInt8)
  | [] => stopAfter .endInString []
  | b :: rest =>
    match state.step skims b with
    | .more next bytes => readTextFrom skims next (bytes.reverse ++ before) rest
    | .close => .ok (before.reverse, rest)
    | .stop problem => stopAfter problem rest

/-- What is left of a text behind the place where a string that has been read stops to be UTF-8. The
place is found from behind the closing quote, by going back as many bytes as the string has from its
last whole character on; so every escape among them counts for the bytes that it stands for. -/
def behindWhole (input bytes rest : List UInt8) : List UInt8 :=
  let odd := bytes.length - Text.wholeBytes bytes
  input.drop (input.length - (rest.length + odd))

/-- Reads a string behind its opening quote. -/
def readText (input : List UInt8) : Except Stop (String × List UInt8) := do
  let (bytes, rest) ← readTextFrom false .plain [] input
  match String.fromUTF8? ⟨bytes.toArray⟩ with
  | some s => return (s, rest)
  | none => stopAfter .badEncoding (behindWhole input bytes rest)

/-- Reads over a string behind its opening quote. -/
def skimText (input : List UInt8) : Except Stop (Unit × List UInt8) :=
  (readTextFrom true .plain [] input).map fun r => ((), r.2)

/-! ## Between values -/

/-- What a comma before a closing bracket is, and the end of the text behind a comma in an
object. -/
structure CommaRule where
  /-- The problem with a comma before `]`. -/
  beforeListEnd : Problem
  /-- The problem with a comma before a closing brace. -/
  beforeObjectEnd : Problem
  /-- The problem with the end of the text behind a comma in an object. -/
  beforeEnd : Problem

/-- In a value that is read. -/
def CommaRule.read : CommaRule where
  beforeListEnd := .trailingComma
  beforeObjectEnd := .trailingComma
  beforeEnd := .endInValue

/-- In a value that is only skimmed. -/
def CommaRule.skim : CommaRule where
  beforeListEnd := .noValue
  beforeObjectEnd := .keyNotText
  beforeEnd := .endInObject

/-- Moves to the next item of a list, over the comma unless it is the `first`. The answer is `false`
if the list ends here; its bracket is then read. -/
def nextItem (rule : CommaRule) (first : Bool) (input : List UInt8) :
    Except Stop (Bool × List UInt8) :=
  match skipSpace input with
  | [] => stopAt .endInList []
  | b :: rest =>
    if b = byte ']' then .ok (false, rest)
    else if first then .ok (true, b :: rest)
    else if b = byte ',' then
      match skipSpace rest with
      | [] => stopAt .endInValue []
      | c :: more =>
        if c = byte ']' then stopAt rule.beforeListEnd (c :: more) else .ok (true, c :: more)
    else stopAt .noCommaInList (b :: rest)

/-- Moves to the next key of an object, over the comma unless it is the `first`, and over the
opening quote of the key. The answer is `false` if the object ends here; its brace is then read. -/
def nextKey (rule : CommaRule) (first : Bool) (input : List UInt8) :
    Except Stop (Bool × List UInt8) :=
  match skipSpace input with
  | [] => stopAt .endInObject []
  | b :: rest =>
    if b = byte '\x7d' then .ok (false, rest)
    else if first then
      if b = byte '"' then .ok (true, rest) else stopAt .keyNotText (b :: rest)
    else if b = byte ',' then
      match skipSpace rest with
      | [] => stopAt rule.beforeEnd []
      | c :: more =>
        if c = byte '"' then .ok (true, more)
        else if c = byte '\x7d' then stopAt rule.beforeObjectEnd (c :: more)
        else stopAt .keyNotText (c :: more)
    else stopAt .noCommaInObject (b :: rest)

/-- Reads the colon behind a key. -/
def readColon (input : List UInt8) : Except Stop (Unit × List UInt8) :=
  match skipSpace input with
  | [] => stopAt .endInObject []
  | b :: rest => if b = byte ':' then .ok ((), rest) else stopAt .noColon (b :: rest)

/-- Reads to the end of the text, where only white space may stand. -/
def readEnd (input : List UInt8) : Except Stop (Unit × List UInt8) :=
  match skipSpace input with
  | [] => .ok ((), [])
  | b :: rest => stopAt .trailingText (b :: rest)

/-- Reads the items of a list behind its opening bracket, adding each to a state; there are fewer
than `fuel`. -/
def foldItems {σ : Type} (rule : CommaRule) (item : σ → Reader σ) :
    (fuel : Nat) → (first : Bool) → σ → Reader σ
  | 0, _, _, rest => stopAt .endInList rest
  | fuel + 1, first, state, input => do
    let (more, rest) ← nextItem rule first input
    if more then
      let (state, rest) ← item state rest
      foldItems rule item fuel false state rest
    else return (state, rest)

/-- Reads the members of an object behind its opening brace, adding each to a state; `member` starts
behind the opening quote of a key, and there are fewer members than `fuel`. -/
def foldMembers {σ : Type} (rule : CommaRule) (member : σ → Reader σ) :
    (fuel : Nat) → (first : Bool) → σ → Reader σ
  | 0, _, _, rest => stopAt .endInObject rest
  | fuel + 1, first, state, input => do
    let (more, rest) ← nextKey rule first input
    if more then
      let (state, rest) ← member state rest
      foldMembers rule member fuel false state rest
    else return (state, rest)

end ExtractionBench.Json
