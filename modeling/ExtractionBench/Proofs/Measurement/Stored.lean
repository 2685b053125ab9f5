import Mathlib.Tactic
import ExtractionBench.Proofs.Json.Numbers
import ExtractionBench.Proofs.Measurement.Loading

/-!
# How a stored result is read

The fields come first, from an object or a list. Whether they make up a result, and which file it is
noted under, is decided behind them; so what is read of the text does not depend on the path.
-/

namespace ExtractionBench.Measurement

open Json

variable {path : Path} {tree : FileTree} {m : Measurement Double} {fuel : Nat}

/-- Reads a member of the object behind its key. -/
def readKeyed (fuel : Nat) (fs : Fields) (key : String) : Reader Fields := fun rest =>
  match Field.ofKey? key with
  | some field =>
    if fs.has field then stopAt (.repeatedField key) (skipSpace rest)
    else do
      let (_, rest) ← readColon rest
      readField fs field rest
  | none => do
    let (_, rest) ← readColon rest
    let (_, rest) ← skimValue fuel rest
    return (fs, rest)

theorem readMember_eq (fuel : Nat) (fs : Fields) :
    readMember fuel fs = fun input => readText input >>= fun r => readKeyed fuel fs r.1 r.2 := rfl

/-- Reads the fields of a result. -/
def readFields (fuel : Nat) (input : List UInt8) : Except Stop (Fields × List UInt8) :=
  match skipSpace input with
  | [] => stopAt .endInValue []
  | b :: rest =>
    if b = byte '\x7b' then foldMembers .read (readMember fuel) fuel true Fields.none rest
    else if b = byte '[' then readList Field.all true Fields.none rest
    else refuseValue (.record recordName) (b :: rest)

/-- A result is read if its fields are, and none of them is missing. -/
theorem readResult_eq_ok_iff {input after : List UInt8} :
    readResult fuel path input = .ok (m, after) ↔
      ∃ fs, readFields fuel input = .ok (fs, after) ∧ fs.complete path after = .ok m := by
  have hcomplete : ∀ read : Except Stop (Fields × List UInt8),
      (read >>= fun r => r.1.complete path r.2 >>= fun m => .ok (m, r.2)) = .ok (m, after) ↔
        ∃ fs, read = .ok (fs, after) ∧ fs.complete path after = .ok m := by
    intro read
    rw [bind_eq_ok_iff]
    constructor
    · rintro ⟨⟨fs, rest⟩, hread, h⟩
      obtain ⟨m', hm, h⟩ := bind_eq_ok_iff.mp h
      cases h
      exact ⟨fs, hread, hm⟩
    · rintro ⟨fs, hread, hm⟩
      exact ⟨(fs, after), hread, bind_eq_ok_iff.mpr ⟨m, hm, rfl⟩⟩
  unfold readResult readFields
  cases skipSpace input with
  | nil =>
    constructor
    · intro h
      cases h
    · rintro ⟨fs, h, -⟩
      cases h
  | cons b rest =>
    dsimp only
    split_ifs
    · exact hcomplete _
    · exact hcomplete _
    · constructor
      · intro h
        exact absurd h refuseValue_ne_ok
      · rintro ⟨fs, h, -⟩
        exact absurd h refuseValue_ne_ok

/-- A file holds a result if its fields can be read, nothing but white space follows and none of
them is missing. -/
theorem ofJson_eq_ok_iff {bytes : List UInt8} :
    ofJson path bytes = .ok m ↔
      ∃ fs after, readFields (bytes.length + 1) bytes = .ok (fs, after) ∧ skipSpace after = [] ∧
        fs.complete path after = .ok m := by
  unfold ofJson
  dsimp only
  rw [mapError_eq_ok_iff, bind_eq_ok_iff]
  constructor
  · rintro ⟨⟨m', after⟩, hread, h⟩
    obtain ⟨r, hend, h⟩ := bind_eq_ok_iff.mp h
    cases h
    obtain ⟨fs, hfields, hcomplete⟩ := readResult_eq_ok_iff.mp hread
    exact ⟨fs, after, hfields, readEnd_eq_ok_iff.mp ⟨r, hend⟩, hcomplete⟩
  · rintro ⟨fs, after, hfields, hskip, hcomplete⟩
    obtain ⟨r, hend⟩ := readEnd_eq_ok_iff.mpr hskip
    exact ⟨(m, after), readResult_eq_ok_iff.mpr ⟨fs, hfields, hcomplete⟩,
      bind_eq_ok_iff.mpr ⟨r, hend, rfl⟩⟩

/-- A result read from a file is still checked for numbers that cannot be measured against. -/
theorem ofFile_of_ofJson {content : Content} (hpath : path.extension? ≠ some tableEnding)
    (hread : tree.read path = .ok content) (h : ofJson path content.data = .ok m) :
    ofFile tree path = match m.outOfRange? with
      | some (quantity, value) => .error (.outOfRange path m.name m.extractor quantity value)
      | none => .ok [m] := by
  unfold ofFile
  rw [if_neg hpath, hread]
  cases hrange : m.outOfRange? with
  | some found => simp only [h, hrange]
  | none => simp only [h, hrange]

/-- A file without a result is refused with the problem of its text. -/
theorem ofFile_of_not_ofJson {content : Content} (hpath : path.extension? ≠ some tableEnding)
    (hread : tree.read path = .ok content) (h : ∀ m, ofJson path content.data ≠ .ok m) :
    ∃ failure, ofFile tree path = .error (.json path failure) := by
  cases hjson : ofJson path content.data with
  | ok m => exact absurd hjson (h m)
  | error failure =>
    refine ⟨failure, ?_⟩
    unfold ofFile
    rw [if_neg hpath, hread]
    dsimp only
    rw [hjson]

end ExtractionBench.Measurement
