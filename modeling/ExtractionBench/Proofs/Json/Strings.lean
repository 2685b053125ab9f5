import Mathlib.Tactic
import ExtractionBench.Json.Printer
import ExtractionBench.Proofs.Text.Bytes

/-!
# Strings are read back

Every string is found again in what is written for it: a character that stands for itself passes
byte by byte, and each escape is read as the character that it was written for.
-/

namespace ExtractionBench.Json

open ExtractionBench.Text
  (encode encode_nil encode_append encode_cons encode_ascii toNat_byte utf8EncodeChar_ascii
  le_of_mem_utf8EncodeChar fromUTF8?_encode)

variable {before rest : List UInt8} {skims : Bool}

/-- A byte that does not end a string is put behind those before it. -/
theorem readTextFrom_more {state next : TextState} {b : UInt8} {bytes : List UInt8}
    (h : state.step skims b = .more next bytes) :
    readTextFrom skims state before (b :: rest) =
      readTextFrom skims next (bytes.reverse ++ before) rest := by
  rw [readTextFrom, h]

/-! ## Characters that stand for themselves -/

/-- A byte that stands for itself in a string. -/
def Unescaped (b : UInt8) : Prop := b ≠ byte '"' ∧ b ≠ byte '\\' ∧ 0x20 ≤ b.toNat

/-- A byte without an escape stands for itself. -/
theorem Unescaped.step {b : UInt8} (h : Unescaped b) :
    TextState.plain.step skims b = .more .plain [b] := by
  obtain ⟨hquote, hbackslash, hspace⟩ := h
  have hcontrol : ¬ b < 0x20 := by
    intro hlt
    have : b.toNat < 0x20 := UInt8.lt_iff_toNat_lt.mp hlt
    omega
  rw [TextState.step, if_neg hquote, if_neg hbackslash, if_neg hcontrol]

/-- So do all bytes without an escape. -/
theorem readTextFrom_unescaped {bytes : List UInt8} (h : ∀ b ∈ bytes, Unescaped b)
    (before : List UInt8) :
    readTextFrom skims .plain before (bytes ++ rest) =
      readTextFrom skims .plain (bytes.reverse ++ before) rest := by
  induction bytes generalizing before with
  | nil => rfl
  | cons b bytes ih =>
    have hb : Unescaped b := h b List.mem_cons_self
    rw [List.cons_append, readTextFrom_more hb.step,
      ih fun b' hb' => h b' (List.mem_cons_of_mem b hb')]
    simp

/-- The bytes of a character that is not escaped need no escape. -/
theorem unescaped_of_mem_utf8EncodeChar {c : Char} (hquote : c ≠ '"') (hbackslash : c ≠ '\\')
    (hspace : 0x20 ≤ c.toNat) {b : UInt8} (hb : b ∈ String.utf8EncodeChar c) : Unescaped b := by
  by_cases hascii : c.toNat < 128
  · rw [utf8EncodeChar_ascii hascii, List.mem_singleton] at hb
    have hvalue : b.toNat = c.toNat := by rw [hb, toNat_byte hascii]
    have hne : ∀ d : Char, c ≠ d → d.toNat < 128 → b ≠ byte d := by
      intro d hcd hd hbd
      apply hcd
      apply Char.toNat_inj.mp
      rw [← hvalue, hbd, toNat_byte hd]
    exact ⟨hne '"' hquote (by decide), hne '\\' hbackslash (by decide), hvalue ▸ hspace⟩
  · have hbeyond : 128 ≤ b.toNat := le_of_mem_utf8EncodeChar (Nat.le_of_not_lt hascii) hb
    refine ⟨?_, ?_, by omega⟩ <;>
    · rintro rfl
      exact absurd hbeyond (by decide)

/-! ## Escapes -/

/-- An escape of one letter is read as its character. -/
theorem readTextFrom_shortEscape {letter : UInt8} {c : Char} (hu : letter ≠ byte 'u')
    (h : shortEscape? letter = some c) :
    readTextFrom skims .plain before (byte '\\' :: letter :: rest)
      = readTextFrom skims .plain ((String.utf8EncodeChar c).reverse ++ before) rest := by
  have hbackslash : TextState.plain.step skims (byte '\\') = .more .escaped [] := rfl
  have hletter : TextState.escaped.step skims letter = .more .plain (String.utf8EncodeChar c) := by
    rw [TextState.step, if_neg hu, h]
  rw [readTextFrom_more hbackslash, readTextFrom_more hletter]
  rfl

theorem hexValue?_digitChar : ∀ d < 16, hexValue? (byte (Nat.digitChar d)) = some d := by decide

/-- Each digit of an escape but the last one adds its place. -/
theorem step_hex {leading : Option Nat} {missing value d : Nat} {b : UInt8}
    (hd : hexValue? b = some d) :
    (TextState.hex leading (missing + 2) (some value)).step skims b
      = .more (.hex leading (missing + 1) (some (16 * value + d))) [] := by
  have hmissing : 1 < missing + 2 := by omega
  simp only [TextState.step, stepHex, Option.bind_some, hd, Option.map_some, if_pos hmissing]
  rfl

theorem step_hex_last {leading : Option Nat} {value d : Nat} {b : UInt8}
    (hd : hexValue? b = some d) :
    (TextState.hex leading 1 (some value)).step skims b =
      closeHex skims leading (16 * value + d) := by
  simp only [TextState.step, stepHex, Option.bind_some, hd, Option.map_some]
  rfl

/-- The value of four hexadecimal digits. -/
def hexUnit (i j k l : Nat) : Nat := 16 * (16 * (16 * i + j) + k) + l

/-- Four hexadecimal digits are taken at once. -/
theorem readTextFrom_hex {leading : Option Nat} {a b c d : UInt8} {i j k l : Nat}
    (ha : hexValue? a = some i) (hb : hexValue? b = some j) (hc : hexValue? c = some k)
    (hd : hexValue? d = some l) :
    readTextFrom skims (.hex leading 4 (some 0)) before (a :: b :: c :: d :: rest)
      = match closeHex skims leading (hexUnit i j k l) with
        | .more next bytes => readTextFrom skims next (bytes.reverse ++ before) rest
        | .close => .ok (before.reverse, rest)
        | .stop problem => stopAfter problem rest := by
  have hunit : 16 * (16 * (16 * (16 * 0 + i) + j) + k) + l = hexUnit i j k l := by
    rw [hexUnit, Nat.mul_zero, Nat.zero_add]
  rw [readTextFrom_more (step_hex ha), readTextFrom_more (step_hex hb),
    readTextFrom_more (step_hex hc), readTextFrom, step_hex_last hd, hunit]
  rfl

/-- A control character is read from its number. -/
theorem readTextFrom_hexEscape {n : Nat} (h : n < 0x20) :
    readTextFrom false .plain before
        (['\\', 'u', '0', '0', Nat.digitChar (n / 16), Nat.digitChar (n % 16)].map byte ++ rest)
      = readTextFrom false .plain ((String.utf8EncodeChar (Char.ofNat n)).reverse ++ before)
        rest := by
  have hhigh : n / 16 < 16 := by omega
  have hlow : n % 16 < 16 := by omega
  have hunit : hexUnit 0 0 (n / 16) (n % 16) = n := by
    rw [hexUnit]
    omega
  have hbackslash : TextState.plain.step false (byte '\\') = .more .escaped [] := rfl
  have hu : TextState.escaped.step false (byte 'u') = .more (.hex none 4 (some 0)) [] := rfl
  have hzero : hexValue? (byte '0') = some 0 := rfl
  have hclose : closeHex false none n = .more .plain (String.utf8EncodeChar (Char.ofNat n)) := by
    have htrails : ¬ 0xdc00 ≤ n := by omega
    have hleads : ¬ 0xd800 ≤ n := by omega
    simp [closeHex, htrails, hleads]
  simp only [List.map_cons, List.map_nil, List.cons_append, List.nil_append]
  rw [readTextFrom_more hbackslash, readTextFrom_more hu,
    readTextFrom_hex hzero hzero (hexValue?_digitChar _ hhigh) (hexValue?_digitChar _ hlow), hunit,
      hclose]
  rfl

/-! ## Whole strings -/

/-- What is written for a character is read as its bytes. -/
theorem readTextFrom_escapeChar (c : Char) :
    readTextFrom false .plain before (encode (escapeChar c) ++ rest)
      = readTextFrom false .plain ((String.utf8EncodeChar c).reverse ++ before) rest := by
  unfold escapeChar
  split
  · exact readTextFrom_shortEscape (by decide) rfl
  · exact readTextFrom_shortEscape (by decide) rfl
  · exact readTextFrom_shortEscape (by decide) rfl
  · exact readTextFrom_shortEscape (by decide) rfl
  · exact readTextFrom_shortEscape (by decide) rfl
  · exact readTextFrom_shortEscape (by decide) rfl
  · exact readTextFrom_shortEscape (by decide) rfl
  · next hquote hbackslash _ _ _ _ _ =>
    split
    · next hcontrol =>
      have hascii :
          ∀ d ∈ ['\\', 'u', '0', '0', Nat.digitChar (c.toNat / 16), Nat.digitChar (c.toNat % 16)],
          d.toNat < 128 := by
        have hdigit : ∀ k < 16, (Nat.digitChar k).toNat < 128 := by decide
        have hhigh := hdigit (c.toNat / 16) (by omega)
        have hlow := hdigit (c.toNat % 16) (by omega)
        simp only [List.forall_mem_cons, List.not_mem_nil, false_implies, implies_true, and_true]
        exact ⟨by decide, by decide, by decide, by decide, hhigh, hlow⟩
      rw [encode_ascii hascii, readTextFrom_hexEscape hcontrol, Char.ofNat_toNat]
    · next hspace =>
      have hbytes : ∀ b ∈ String.utf8EncodeChar c, Unescaped b := fun b hb =>
        unescaped_of_mem_utf8EncodeChar hquote hbackslash (Nat.le_of_not_lt hspace) hb
      have hencode : encode [c] = String.utf8EncodeChar c := List.append_nil _
      rw [hencode, readTextFrom_unescaped hbytes]

/-- A text is read back from its escaped characters. -/
theorem readTextFrom_escaped (cs : List Char) (before : List UInt8) :
    readTextFrom false .plain before (encode (cs.flatMap escapeChar) ++ byte '"' :: rest)
      = .ok (before.reverse ++ encode cs, rest) := by
  induction cs generalizing before with
  | nil =>
    have hclose : TextState.plain.step false (byte '"') = .close := rfl
    rw [List.flatMap_nil, encode_nil, List.nil_append, List.append_nil, readTextFrom, hclose]
  | cons c cs ih =>
    rw [List.flatMap_cons, encode_append, List.append_assoc, readTextFrom_escapeChar, ih,
      encode_cons]
    simp

/-- A string is read back from what is written for it behind the opening quote. -/
theorem readText_escaped (s : String) :
    readText (encode (s.toList.flatMap escapeChar) ++ byte '"' :: rest) = .ok (s, rest) := by
  rw [readText, readTextFrom_escaped]
  have hread : String.fromUTF8? ⟨([].reverse ++ encode s.toList).toArray⟩ = some s :=
    fromUTF8?_encode s
  dsimp only [Except.bind, bind]
  rw [hread]
  rfl

end ExtractionBench.Json
