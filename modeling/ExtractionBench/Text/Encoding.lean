/-!
# Bytes of text

How far bytes are text in UTF-8: up to the place where no whole character stands.
-/

namespace ExtractionBench.Text

/-- The place behind the whole characters that follow each other from `place` on, at most `fuel`. -/
def wholeFrom (bytes : ByteArray) : (fuel place : Nat) → Nat
  | 0, place => place
  | fuel + 1, place =>
    if h : (bytes.utf8DecodeChar? place).isSome then
      wholeFrom bytes fuel (place + (bytes.utf8DecodeChar place h).utf8Size)
    else place

/-- How many bytes make up the whole characters at the front. -/
def wholeBytes (bytes : List UInt8) : Nat := wholeFrom ⟨bytes.toArray⟩ bytes.length 0

/-- Whole characters end within the bytes. -/
theorem wholeFrom_le_size (bytes : ByteArray) (fuel : Nat) {place : Nat} (h : place ≤ bytes.size) :
    wholeFrom bytes fuel place ≤ bytes.size := by
  induction fuel generalizing place with
  | zero => exact h
  | succ fuel ih =>
    rw [wholeFrom]
    split
    · exact ih ByteArray.add_utf8Size_utf8DecodeChar_le_size
    · exact h

/-- No more bytes than there are make up whole characters. -/
theorem wholeBytes_le_length (bytes : List UInt8) : wholeBytes bytes ≤ bytes.length := by
  simpa [wholeBytes, ByteArray.size]
    using wholeFrom_le_size ⟨bytes.toArray⟩ bytes.length (Nat.zero_le _)

end ExtractionBench.Text
