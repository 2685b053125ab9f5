import Mathlib.Data.String.Basic
import Mathlib.Tactic
import ExtractionBench.Proofs.Text.Bytes

/-!
# The order of names

Names are ordered by their characters. UTF-8 keeps this order: the first byte in which the encodings
of two characters differ is the lesser one for the lesser character. So names are ordered by their
bytes.
-/

namespace ExtractionBench.Text

/-- Bytes are compared as the numbers that they stand for, from the front. -/
theorem ofNat_cons_lt_iff {a b : Nat} (ha : a < 256) (hb : b < 256) {xs ys : List UInt8} :
    UInt8.ofNat a :: xs < UInt8.ofNat b :: ys ↔ a < b ∨ a = b ∧ xs < ys := by
  rw [List.cons_lt_cons_iff, UInt8.lt_iff_toNat_lt, ← UInt8.toNat_inj, UInt8.toNat_ofNat',
    UInt8.toNat_ofNat', Nat.mod_eq_of_lt ha, Nat.mod_eq_of_lt hb]

/-- The first digit in which two numbers differ is the lesser one of the lesser number. -/
theorem digits_lt {v w : Nat} (h : v < w) :
    v / 262144 < w / 262144 ∨ v / 262144 = w / 262144 ∧
      (v / 4096 % 64 < w / 4096 % 64 ∨ v / 4096 % 64 = w / 4096 % 64 ∧
        (v / 64 % 64 < w / 64 % 64 ∨ v / 64 % 64 = w / 64 % 64 ∧ v % 64 < w % 64)) := by
  by_cases h3 : v / 262144 < w / 262144
  · exact .inl h3
  have heq3 : v / 262144 = w / 262144 := by omega
  refine .inr ⟨heq3, ?_⟩
  by_cases h2 : v / 4096 < w / 4096
  · exact .inl (by omega)
  have heq2 : v / 4096 = w / 4096 := by omega
  refine .inr ⟨by rw [heq2], ?_⟩
  by_cases h1 : v / 64 < w / 64
  · exact .inl (by omega)
  have heq1 : v / 64 = w / 64 := by omega
  exact .inr ⟨by rw [heq1], by omega⟩

/-- The bytes of a smaller character come first, whatever follows them. -/
theorem utf8EncodeChar_append_lt {c d : Char} (h : c < d) (xs ys : List UInt8) :
    String.utf8EncodeChar c ++ xs < String.utf8EncodeChar d ++ ys := by
  have hlt : c.val.toNat < d.val.toNat := h
  have hd : d.val.toNat < 1114112 := by
    have hvalid := d.valid
    simp only [UInt32.isValidChar, Nat.isValidChar] at hvalid
    omega
  simp only [String.utf8EncodeChar]
  generalize c.val.toNat = v at hlt
  generalize d.val.toNat = w at hlt hd
  have hdigits := digits_lt hlt
  have hv : v / 262144 % 8 = v / 262144 := Nat.mod_eq_of_lt (by omega)
  have hw : w / 262144 % 8 = w / 262144 := Nat.mod_eq_of_lt (by omega)
  -- A shorter encoding begins with a lesser byte, and encodings of one length have the digits of
  -- the character.
  split_ifs <;> simp (disch := omega)
    only [List.cons_append, List.nil_append, ofNat_cons_lt_iff, hv, hw] <;> omega

/-- The bytes of a smaller text come first. -/
theorem encode_lt {cs ds : List Char} (h : cs < ds) : encode cs < encode ds := by
  induction h with
  | @nil d ds =>
    rw [encode_nil, encode_cons]
    cases hd : String.utf8EncodeChar d with
    | nil => exact absurd hd (by simp [String.utf8EncodeChar_ne_nil])
    | cons b bs => exact List.Lex.nil
  | @cons c cs ds _ ih =>
    rw [encode_cons, encode_cons]
    exact List.append_left_lt ih
  | @rel c cs d ds hcd =>
    rw [encode_cons, encode_cons]
    exact utf8EncodeChar_append_lt hcd _ _

/-- The bytes of a text. -/
def utf8 (s : String) : List UInt8 := s.toUTF8.toList

theorem utf8_eq_encode (s : String) : utf8 s = encode s.toList := by
  rw [utf8, ← toList_toUTF8_ofList, String.ofList_toList]

/-- Texts are in the order of their bytes. -/
theorem utf8_lt_iff {s t : String} : utf8 s < utf8 t ↔ s < t := by
  rw [String.lt_iff_toList_lt, utf8_eq_encode, utf8_eq_encode]
  refine ⟨fun h => ?_, encode_lt⟩
  rcases lt_trichotomy s.toList t.toList with hlt | heq | hgt
  · exact hlt
  · rw [heq] at h
    exact absurd h (List.lt_irrefl _)
  · exact absurd (encode_lt hgt) (List.lt_asymm h)

end ExtractionBench.Text
