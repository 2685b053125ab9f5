/-!
# Replacing text by text

Every occurrence of a pattern, found from left to right without overlap, gives way to a replacement.
-/

namespace ExtractionBench.Text

/-- Replaces the occurrences of `pattern` that start after the first `skip` characters; those
characters belong to an occurrence that has been replaced already and are dropped. -/
def replaceFrom (pattern replacement : List Char) : (skip : Nat) → List Char → List Char
  | _, [] => []
  | skip + 1, _ :: rest => replaceFrom pattern replacement skip rest
  | 0, c :: rest =>
    if pattern.isPrefixOf (c :: rest) then
      replacement ++ replaceFrom pattern replacement (pattern.length - 1) rest
    else c :: replaceFrom pattern replacement 0 rest

/-- The text with every occurrence of a non-empty pattern replaced. -/
def replaceAll (pattern replacement text : List Char) : List Char :=
  replaceFrom pattern replacement 0 text

/-- Dropping occurrences makes no text longer. -/
theorem length_replaceFrom_nil_le (pattern : List Char) (skip : Nat) (text : List Char) :
    (replaceFrom pattern [] skip text).length ≤ text.length := by
  fun_induction replaceFrom pattern [] skip text with
  | case1 => simp
  | case2 skip _ rest ih => simpa using Nat.le_succ_of_le ih
  | case3 c rest _ ih => simpa using Nat.le_succ_of_le ih
  | case4 c rest _ ih => simpa using ih

end ExtractionBench.Text
