import Mathlib.Tactic
import ExtractionBench.EGraph.Conversion
import ExtractionBench.Proofs.Text.Collapse

/-!
# The name of the JSON

The path that JSON is written to is made by two passes over the text of the path that is converted,
and what a pass has put together is not looked at again. So the path ends in `.json`, but dropping
one `.csv` may make another, and of three `.json` in a row two are left.
-/

namespace ExtractionBench.EGraph

open Text (replaceAll times collapse)

/-- The end of the names of files in the older format. -/
def csv : List Char := ".csv".toList

/-- The end of the names of JSON files. -/
def json : List Char := ".json".toList

theorem csv_eq : csv = '.' :: ['c', 's', 'v'] := by simp [csv]

theorem json_eq : json = '.' :: ['j', 's', 'o', 'n'] := by simp [json]

theorem csv_ne_nil : csv ≠ [] := by simp [csv_eq]

theorem json_json_ne_nil : json ++ json ≠ [] := by simp [json_eq]

@[simp] theorem length_csv : csv.length = 4 := by simp [csv_eq]

@[simp] theorem length_json : json.length = 5 := by simp [json_eq]

/-- The text of a path, without any `.csv` that is in it. -/
def stem (p : Path) : List Char := replaceAll csv [] p.text.toList

/-- The path of the output is the stem of the input with an ending, and repeated endings
collapsed. -/
theorem toList_outputPath (p : Path) :
    (outputPath p).text.toList = collapse json (stem p ++ json) := by
  have hjsons : ".json.json".toList = json ++ json := by simp [json]
  rw [outputPath, String.toList_ofList, hjsons]
  rfl

theorem json_suffix_collapse (text : List Char) : json <:+ collapse json (text ++ json) := by
  rw [json_eq]
  exact Text.suffix_collapse (by simp) (List.suffix_append _ _)

/-- Every output ends in `.json`. -/
theorem json_suffix_outputPath (p : Path) : json <:+ (outputPath p).text.toList := by
  rw [toList_outputPath]
  exact json_suffix_collapse (stem p)

/-- Texts on both sides of a dot lose their endings each on its own. -/
theorem drop_append_mark (x y : List Char) :
    replaceAll csv [] (x ++ '.' :: y) = replaceAll csv [] x ++ replaceAll csv [] ('.' :: y) := by
  rw [csv_eq]
  exact Text.replaceAll_append_mark (by simp) x y

theorem drop_cons {c : Char} (hc : c ≠ '.') (text : List Char) :
    replaceAll csv [] (c :: text) = c :: replaceAll csv [] text :=
  Text.replaceAll_cons fun h => hc (List.cons_prefix_cons.mp (csv_eq ▸ h)).1.symm

/-! ## A `.csv` in the name -/

/-- A `.csv` that is left when those inside it are dropped: so many of them behind each of its
characters. -/
def nested (a b c : Nat) : List Char :=
  '.' :: (times a csv ++ 'c' :: (times b csv ++ 's' :: (times c csv ++ ['v'])))

/-- Endings that are nested leave one behind. -/
theorem drop_nested {a b c : Nat} (h : 0 < a + b + c) (rest : List Char) :
    replaceAll csv [] (nested a b c ++ rest) = csv ++ replaceAll csv [] rest := by
  have hno : ¬ csv <+: nested a b c ++ rest := by
    rcases a with _ | a
    · rcases b with _ | b
      · rcases c with _ | c
        · contradiction
        · simp [nested, Text.times_succ, Text.times_zero, csv_eq]
      · simp [nested, Text.times_succ, Text.times_zero, csv_eq]
    · simp [nested, Text.times_succ, csv_eq]
  rw [nested, List.cons_append] at hno ⊢
  rw [Text.replaceAll_cons hno, List.append_assoc, Text.drop_times csv_ne_nil, List.cons_append,
    drop_cons (by simp),
    List.append_assoc, Text.drop_times csv_ne_nil, List.cons_append, drop_cons (by simp),
      List.append_assoc,
    Text.drop_times csv_ne_nil, List.cons_append, drop_cons (by simp)]
  simp [csv_eq]

/-- Dropping every `.csv` once leaves one, exactly if there is one with another in it. -/
theorem csv_infix_stem_iff (p : Path) :
    csv <:+: stem p ↔ ∃ a b c, 0 < a + b + c ∧ nested a b c <:+: p.text.toList := by
  constructor
  · rintro ⟨x, y, h⟩
    rw [List.append_assoc] at h
    obtain ⟨front, behind, htext, hbehind⟩ := Text.exists_of_drop_eq_append csv_ne_nil h.symm
    have hletters : replaceAll csv [] behind = '.' :: 'c' :: 's' :: 'v' :: y := by
      rw [hbehind, csv_eq]; rfl
    -- Each letter of it stands behind some that were dropped.
    obtain ⟨n, behind, rfl, hno, hletters⟩ := Text.exists_of_drop_eq_cons csv_ne_nil hletters
    obtain ⟨a, behind, rfl, -, hletters⟩ := Text.exists_of_drop_eq_cons csv_ne_nil hletters
    obtain ⟨b, behind, rfl, -, hletters⟩ := Text.exists_of_drop_eq_cons csv_ne_nil hletters
    obtain ⟨c, behind, rfl, -, -⟩ := Text.exists_of_drop_eq_cons csv_ne_nil hletters
    refine ⟨a, b, c, ?_, front ++ times n csv, behind, ?_⟩
    · by_contra hzero
      obtain ⟨rfl, rfl, rfl⟩ : a = 0 ∧ b = 0 ∧ c = 0 := by omega
      simp [csv_eq, Text.times_zero] at hno
    · rw [htext, nested]
      simp
  · rintro ⟨a, b, c, hpos, front, behind, htext⟩
    refine ⟨replaceAll csv [] front, replaceAll csv [] behind, ?_⟩
    rw [stem, ← htext, List.append_assoc, List.append_assoc, ← drop_nested hpos, nested,
      List.cons_append, drop_append_mark]

/-- An output has a `.csv` in its path exactly if the stem of its input has. -/
theorem csv_infix_outputPath_iff (p : Path) :
    csv <:+: (outputPath p).text.toList ↔ csv <:+: stem p := by
  rw [toList_outputPath, csv_eq, json_eq,
    Text.infix_collapse_iff (by simp) (by simp) (by simp) (by simp),
    Text.infix_append_mark_iff (by simp)]
  simp [List.infix_cons_iff]

/-! ## Two `.json` in a row -/

/-- An output has a repeated ending exactly if there were at least three in a row. -/
theorem json_json_infix_outputPath_iff (p : Path) :
    json ++ json <:+: (outputPath p).text.toList ↔ json ++ (json ++ json) <:+: stem p ++ json := by
  rw [toList_outputPath, json_eq]
  exact Text.twice_infix_collapse_iff (by simp)

/-! ## The name of the name -/

theorem outputPath_eq_iff {p q : Path} :
    outputPath p = q ↔ collapse json (stem p ++ json) = q.text.toList := by
  rw [← toList_outputPath, String.toList_inj]
  constructor
  · intro h
    rw [h]
  · intro h
    cases q
    exact congrArg Path.mk h

/-- A path that ends in `.json` is its own name, exactly if what stands in front of it is left as it
is. -/
theorem outputPath_eq_self_iff {p : Path} {front : List Char} (h : p.text.toList = front ++ json) :
    outputPath p = p ↔ ¬ csv <:+: front ∧ ¬ json ++ json <:+: front := by
  have hstem : stem p = replaceAll csv [] front ++ json := by
    have hjson : replaceAll csv [] json = json := by decide
    rw [stem, h, json_eq, drop_append_mark, ← json_eq, hjson]
  rw [outputPath_eq_iff, h, hstem, List.append_assoc]
  by_cases hcsv : csv <:+: front
  · refine iff_of_false (fun heq => ?_) (fun hnone => hnone.1 hcsv)
    have hdropped := Text.length_replaceAll_add_le [] csv_ne_nil (by simp) hcsv
    have hcollapsed := Text.length_replaceAll_add_le json json_json_ne_nil (by simp)
      (List.suffix_append (replaceAll csv [] front) (json ++ json)).isInfix
    rw [collapse] at heq
    rw [heq] at hcollapsed
    simp only [List.length_append, List.length_nil, length_csv, length_json] at hdropped hcollapsed
    omega
  · rw [Text.replaceAll_eq_self csv_ne_nil hcsv, json_eq, Text.collapse_append_twice_iff (by simp)]
    simp [hcsv]

/-- What is to be found in the path that JSON is written to. It ends in `.json`; it has a `.csv`
exactly if in the path that is converted there is one with others in it, and two `.json` in a row
exactly if there are three when `.json` is added to the stem. It is left as it is when it is
converted again, exactly if in front of its last `.json` there is neither. -/
theorem exists_front_of_outputPath (p : Path) :
    ∃ front, (outputPath p).text.toList = front ++ json ∧
      (csv <:+: front ++ json ↔ ∃ a b c, 0 < a + b + c ∧ nested a b c <:+: p.text.toList) ∧
      (json ++ json <:+: front ++ json ↔ json ++ (json ++ json) <:+: stem p ++ json) ∧
      (outputPath (outputPath p) = outputPath p ↔
        ¬ csv <:+: front ∧ ¬ json ++ json <:+: front) := by
  obtain ⟨front, hfront⟩ := json_suffix_outputPath p
  refine ⟨front, hfront.symm, ?_, ?_, outputPath_eq_self_iff hfront.symm⟩
  · rw [hfront, csv_infix_outputPath_iff, csv_infix_stem_iff]
  · rw [hfront, json_json_infix_outputPath_iff]

/-- A second `.json` stays, and so does a `.csv` that was around another, until it is converted
again. -/
theorem output_not_normal :
    outputPath ⟨"foo.json.json"⟩ = ⟨"foo.json.json"⟩ ∧
    outputPath ⟨"foo.c.csvsv"⟩ = ⟨"foo.csv.json"⟩ ∧
      outputPath ⟨"foo.csv.json"⟩ = ⟨"foo.json"⟩ := by
  decide

end ExtractionBench.EGraph
