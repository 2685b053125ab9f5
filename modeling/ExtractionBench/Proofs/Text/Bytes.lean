import Mathlib.Tactic
import ExtractionBench.Json.Token

/-!
# Text and its bytes

A text is written and read as bytes in UTF-8. An ASCII character is one byte, every byte of any
other character lies beyond ASCII, and the characters of a string are found again in its bytes.
-/

namespace ExtractionBench.Text

/-- The bytes of some characters. -/
def encode (cs : List Char) : List UInt8 := cs.flatMap String.utf8EncodeChar

@[simp] theorem encode_nil : encode [] = [] := rfl

theorem encode_cons (c : Char) (cs : List Char) :
    encode (c :: cs) = String.utf8EncodeChar c ++ encode cs := rfl

@[simp] theorem encode_append (cs ds : List Char) : encode (cs ++ ds) = encode cs ++ encode ds :=
  List.flatMap_append

/-- Every character has a byte. -/
theorem length_le_utf8ByteSize (s : String) : s.length ≤ s.utf8ByteSize := by
  obtain ⟨cs, rfl⟩ : ∃ cs, s = String.ofList cs := ⟨s.toList, String.ofList_toList.symm⟩
  induction cs with
  | nil => exact Nat.zero_le _
  | cons c cs ih =>
    have hpos := c.utf8Size_pos
    rw [String.ofList_cons, String.length_append, String.utf8ByteSize_append,
      String.length_singleton, String.utf8ByteSize_singleton]
    omega

theorem toNat_byte {c : Char} (h : c.toNat < 128) : (Json.byte c).toNat = c.toNat :=
  Nat.mod_eq_of_lt (by omega)

theorem utf8EncodeChar_ascii {c : Char} (h : c.toNat < 128) :
    String.utf8EncodeChar c = [Json.byte c] :=
  if_pos (Nat.le_of_lt_succ h)

theorem encode_ascii {cs : List Char} (h : ∀ c ∈ cs, c.toNat < 128) :
    encode cs = cs.map Json.byte := by
  induction cs with
  | nil => rfl
  | cons c cs ih =>
    rw [encode_cons, utf8EncodeChar_ascii (h c List.mem_cons_self),
      ih fun d hd => h d (List.mem_cons_of_mem c hd)]
    rfl

/-- The bytes of a character beyond ASCII lie beyond ASCII. -/
theorem le_of_mem_utf8EncodeChar {c : Char} (h : 128 ≤ c.toNat) {b : UInt8}
    (hb : b ∈ String.utf8EncodeChar c) :
    128 ≤ b.toNat := by
  have hne : ¬ c.val.toNat ≤ 127 := Nat.not_le_of_gt h
  have hbyte :
      ∀ x k m : Nat, 0 < k → 128 ≤ m → m + k ≤ 256 → 128 ≤ (UInt8.ofNat (x % k + m)).toNat := by
    intro x k m hk hm hmk
    have hlt := Nat.mod_lt x hk
    rw [UInt8.toNat_ofNat']
    omega
  simp only [String.utf8EncodeChar, if_neg hne] at hb
  split_ifs at hb
  · simp only [List.mem_cons, List.not_mem_nil, or_false] at hb
    rcases hb with rfl | rfl
    · exact hbyte _ 32 192 (by norm_num) (by norm_num) (by norm_num)
    · exact hbyte _ 64 128 (by norm_num) (by norm_num) (by norm_num)
  · simp only [List.mem_cons, List.not_mem_nil, or_false] at hb
    rcases hb with rfl | rfl | rfl
    · exact hbyte _ 16 224 (by norm_num) (by norm_num) (by norm_num)
    · exact hbyte _ 64 128 (by norm_num) (by norm_num) (by norm_num)
    · exact hbyte _ 64 128 (by norm_num) (by norm_num) (by norm_num)
  · simp only [List.mem_cons, List.not_mem_nil, or_false] at hb
    rcases hb with rfl | rfl | rfl | rfl
    · exact hbyte _ 8 240 (by norm_num) (by norm_num) (by norm_num)
    · exact hbyte _ 64 128 (by norm_num) (by norm_num) (by norm_num)
    · exact hbyte _ 64 128 (by norm_num) (by norm_num) (by norm_num)
    · exact hbyte _ 64 128 (by norm_num) (by norm_num) (by norm_num)

theorem toList_byteArray (bytes : ByteArray) : bytes.toList = bytes.data.toList := by
  have hsize : bytes.data.toList.length = bytes.size := rfl
  have hloop : ∀ (n i : Nat) (acc : List UInt8), bytes.size - i = n →
      ByteArray.toList.loop bytes i acc = acc.reverse ++ bytes.data.toList.drop i := by
    intro n
    induction n with
    | zero =>
      intro i acc hi
      rw [ByteArray.toList.loop, if_neg (by omega), List.drop_eq_nil_of_le (by omega),
        List.append_nil]
    | succ n ih =>
      intro i acc hi
      have hlt : i < bytes.data.toList.length := by omega
      rw [ByteArray.toList.loop, if_pos (by omega), ih _ _ (by omega),
        List.drop_eq_getElem_cons hlt, List.reverse_cons, List.append_assoc, List.singleton_append]
      have hget : bytes.get! i = bytes.data.toList[i] := (getElem!_pos bytes.data i hlt).trans rfl
      rw [hget]
  exact hloop _ 0 [] rfl

/-- The bytes of a string are those of its characters. -/
theorem toList_toUTF8_ofList (cs : List Char) : (String.ofList cs).toUTF8.toList = encode cs := by
  rw [toList_byteArray, String.toUTF8_eq_toByteArray, String.toByteArray_ofList, List.utf8Encode,
    List.data_toByteArray, List.toList_toArray]
  rfl

/-- A string is found again in its bytes. -/
theorem fromUTF8?_encode (s : String) : String.fromUTF8? ⟨(encode s.toList).toArray⟩ = some s := by
  have hbytes : (⟨(encode s.toList).toArray⟩ : ByteArray) = s.toByteArray := by
    rw [← s.utf8Encode_toList, List.utf8Encode]
    exact ByteArray.ext List.data_toByteArray.symm
  rw [hbytes, String.fromUTF8?, dif_pos s.isValidUTF8]
  rfl

end ExtractionBench.Text
