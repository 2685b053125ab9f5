import Mathlib.Tactic
import ExtractionBench.Proofs.Measurement.Table

/-!
# Loading file by file

What is loaded is made up file by file, in order, and a file counts for all of its results or for
none. The policy only decides what happens at a file that cannot be loaded, and the cap on dag costs
does not depend on where a result comes from.
-/

namespace ExtractionBench.Measurement

variable {tree : FileTree} {path : Path} {paths p q : List Path}

/-- The results of a file, none if it cannot be loaded. -/
def foundIn (tree : FileTree) (path : Path) : List (Measurement Double) :=
  match ofFile tree path with
  | .ok ms => ms
  | .error _ => []

/-- Lenient loading keeps what it finds, file by file, and never fails. -/
theorem result_ofFiles_lenient (tree : FileTree) (paths : List Path) :
    (ofFiles tree .lenient paths).result = .ok (paths.flatMap (foundIn tree)) := by
  induction paths with
  | nil => rfl
  | cons path rest ih =>
    rw [List.flatMap_cons, foundIn]
    cases hfile : ofFile tree path with
    | ok ms => simp only [ofFiles, hfile, ih, Except.map]
    | error fault => simp only [ofFiles, hfile, ih, List.nil_append]

/-- Strict loading needs every file. -/
theorem result_ofFiles_strict (tree : FileTree) (paths : List Path) :
    (ofFiles tree .strict paths).result = (paths.mapM (ofFile tree)).map List.flatten := by
  induction paths with
  | nil => rfl
  | cons path rest ih =>
    rw [List.mapM_cons]
    cases hfile : ofFile tree path with
    | error fault => simp [ofFiles, hfile, bind, Except.bind, Except.map]
    | ok ms =>
      simp only [ofFiles, hfile, ih]
      cases rest.mapM (ofFile tree) with
      | error fault => rfl
      | ok found => rfl

theorem foundIn_of_ok {ms : List (Measurement Double)} (h : ofFile tree path = .ok ms) :
    foundIn tree path = ms := by
  rw [foundIn, h]

theorem foundIn_of_error {fault : Fault Double} (h : ofFile tree path = .error fault) :
    foundIn tree path = [] := by
  rw [foundIn, h]

/-- Files that can all be loaded are loaded alike under both policies. -/
theorem flatten_eq_flatMap_foundIn {found : List (List (Measurement Double))}
    (h : paths.mapM (ofFile tree) = .ok found) : found.flatten = paths.flatMap (foundIn tree) := by
  have hfound : found.map id = paths.map (foundIn tree) :=
    map_eq_map_of_mapM h fun path _ ms hms => (foundIn_of_ok hms).symm
  rw [List.flatMap_def, ← hfound, List.map_id]

/-- Lists of files are loaded one behind the other. -/
theorem result_ofFiles_append (tree : FileTree) (policy : LoadPolicy) (p q : List Path) :
    (ofFiles tree policy (p ++ q)).result = do
      let ms ← (ofFiles tree policy p).result
      let ns ← (ofFiles tree policy q).result
      return ms ++ ns := by
  cases policy with
  | lenient =>
    simp only [result_ofFiles_lenient, List.flatMap_append]
    rfl
  | strict =>
    simp only [result_ofFiles_strict, List.mapM_append]
    cases p.mapM (ofFile tree) with
    | error fault => rfl
    | ok found =>
      cases q.mapM (ofFile tree) with
      | error fault => rfl
      | ok others => exact congrArg Except.ok List.flatten_append

/-- No row of a table counts if one of its row lines holds no result. -/
theorem foundIn_of_bad_row {contents : String} (hending : path.extension? = some tableEnding)
    (hcontents : tree.readText path = .ok contents)
    (hbad : ∃ line ∈ rowLines (Text.lines contents.toList), ¬ ∃ m, Holds path line m) :
    foundIn tree path = [] := by
  have hfile : ofFile tree path = ofTable contents path := by
    unfold ofFile
    rw [if_pos hending, hcontents]
  cases htable : ofTable contents path with
  | error fault => exact foundIn_of_error (hfile.trans htable)
  | ok ms =>
    obtain ⟨line, hline, hno⟩ := hbad
    exact absurd (exists_holds_of_mem (ofTable_eq_ok_iff.mp htable) line hline) hno

/-! ## With the cap on dag costs -/

/-- Loading clamps what was read, unless it is told not to. -/
theorem result_load (tree : FileTree) (paths : List Path) (config : LoadConfig) :
    (load tree paths config).result =
      (ofFiles tree config.policy paths).result.map fun ms => if config.noClamp then ms
        else ms.map clamp := rfl

theorem exists_load_iff {config : LoadConfig} :
    (∃ ms, (load tree paths config).result = .ok ms) ↔
      ∃ ms, (ofFiles tree config.policy paths).result = .ok ms := by
  simp only [result_load, map_eq_ok_iff]
  constructor
  · rintro ⟨_, ms, hms, -⟩
    exact ⟨ms, hms⟩
  · rintro ⟨ms, hms⟩
    exact ⟨_, ms, hms, rfl⟩

/-- Loading two lists of paths is loading the first one and then the second one. -/
theorem result_load_append (tree : FileTree) (p q : List Path) (config : LoadConfig) :
    (load tree (p ++ q) config).result = do
      let ms ← (load tree p config).result
      let ns ← (load tree q config).result
      return ms ++ ns := by
  simp only [result_load, result_ofFiles_append]
  cases (ofFiles tree config.policy p).result with
  | error fault => rfl
  | ok ms =>
    cases (ofFiles tree config.policy q).result with
    | error fault => rfl
    | ok ns =>
      refine congrArg Except.ok ?_
      split
      · rfl
      · exact List.map_append

/-- Without the cap lenient loading gives what is found. -/
theorem load_uncapped_lenient (tree : FileTree) (paths : List Path) :
    (load tree paths ⟨.lenient, true⟩).result = .ok (paths.flatMap (foundIn tree)) := by
  rw [result_load, result_ofFiles_lenient]
  rfl

/-- The cap is put on what is loaded without it. -/
theorem load_capped (tree : FileTree) (paths : List Path) (policy : LoadPolicy) :
    (load tree paths ⟨policy, false⟩).result =
      (load tree paths ⟨policy, true⟩).result.map fun ms => ms.map clamp := by
  rw [result_load, result_load]
  cases (ofFiles tree policy paths).result with
  | error fault => rfl
  | ok ms => rfl

/-- Strict loading succeeds exactly if every file can be read. -/
theorem exists_load_strict_iff {noClamp : Bool} :
    (∃ ms, (load tree paths ⟨.strict, noClamp⟩).result = .ok ms) ↔
      ∀ path ∈ paths, ∃ ms, ofFile tree path = .ok ms := by
  rw [exists_load_iff, ← exists_mapM_eq_ok_iff, result_ofFiles_strict]
  simp only [map_eq_ok_iff]
  constructor
  · rintro ⟨_, found, hfound, -⟩
    exact ⟨found, hfound⟩
  · rintro ⟨found, hfound⟩
    exact ⟨_, found, hfound, rfl⟩

/-- Strict loading fails with the fault of the first file that cannot be read. -/
theorem load_strict_eq_error_iff {noClamp : Bool} {fault : Fault Double} :
    (load tree paths ⟨.strict, noClamp⟩).result = .error fault ↔
      ∃ before path after, paths = before ++ path :: after ∧
        (∀ x ∈ before, ∃ ms, ofFile tree x = .ok ms) ∧
        ofFile tree path = .error fault := by
  rw [result_load, map_eq_error_iff, result_ofFiles_strict, map_eq_error_iff, mapM_eq_error_iff]

/-- What the strict policy loads so does the lenient one. -/
theorem load_lenient_of_strict {noClamp : Bool} {ms : List (Measurement Double)}
    (h : (load tree paths ⟨.strict, noClamp⟩).result = .ok ms) :
    (load tree paths ⟨.lenient, noClamp⟩).result = .ok ms := by
  rw [result_load, result_ofFiles_strict] at h
  obtain ⟨_, hstored, rfl⟩ := map_eq_ok_iff.mp h
  obtain ⟨found, hfound, rfl⟩ := map_eq_ok_iff.mp hstored
  rw [result_load, result_ofFiles_lenient, ← flatten_eq_flatMap_foundIn hfound]
  rfl

/-- Loading under the two policies agrees, and is made up file by file. Leniently, the results are
those of the files that can be loaded, in order, and a table with a bad row has none. Strictly,
loading succeeds if it does for every file, with the same results, and otherwise fails as the first
file does that cannot be loaded. What is loaded from some files and others is what is loaded from
either, and the cap changes nothing but dag costs that reach it. -/
theorem policies_agree (tree : FileTree) (p q : List Path) (config : LoadConfig) :
    let lenient : LoadConfig := { config with policy := .lenient }
    let strict : LoadConfig := { config with policy := .strict }
    ((∃ ms, (load tree p lenient).result = .ok ms) ∧
      (load tree p { lenient with noClamp := true }).result = .ok (p.flatMap (foundIn tree)) ∧
      ∀ path contents, path.extension? = some tableEnding → tree.readText path = .ok contents →
        (∃ line ∈ rowLines (Text.lines contents.toList), ¬ ∃ m, Holds path line m) →
          foundIn tree path = []) ∧
    (((∃ ms, (load tree p strict).result = .ok ms) ↔ ∀ path ∈ p, ∃ ms, ofFile tree path = .ok ms) ∧
      (∀ ms, (load tree p strict).result = .ok ms → (load tree p lenient).result = .ok ms) ∧
      ∀ fault, (load tree p strict).result = .error fault ↔
        ∃ before path after, p = before ++ path :: after ∧
          (∀ x ∈ before, ∃ ms, ofFile tree x = .ok ms) ∧
          ofFile tree path = .error fault) ∧
    ((load tree (p ++ q) config).result = do
      let ms ← (load tree p config).result
      let ns ← (load tree q config).result
      return ms ++ ns) ∧
    (load tree p { config with noClamp := false }).result =
      (load tree p { config with noClamp := true }).result.map fun ms => ms.map fun m =>
        if ((1000 : Nat) : Double) ≤ m.dag then { m with dag := ((1000 : Nat) : Double) }
          else m := by
  intro lenient strict
  refine ⟨⟨?_, load_uncapped_lenient tree p, ?_⟩, ⟨exists_load_strict_iff, ?_, ?_⟩, ?_, ?_⟩
  · exact exists_load_iff.mpr ⟨_, result_ofFiles_lenient tree p⟩
  · intro path contents
    exact foundIn_of_bad_row
  · intro ms
    exact load_lenient_of_strict
  · intro fault
    exact load_strict_eq_error_iff
  · exact result_load_append tree p q config
  · exact load_capped tree p config.policy

end ExtractionBench.Measurement
