import Mathlib.Tactic
import ExtractionBench.Measurement.Loading
import ExtractionBench.Proofs.FairShare.Curves
import ExtractionBench.Proofs.Numeric.Order

/-!
# What loading guarantees

Every way of loading checks the quantities of a result and notes its file: a row of a table, an
object or a list in a JSON file (`Checked`). Leaving files out only leaves results out, and the cap
on dag costs keeps the check. So what is loaded has costs that are finite and a runtime that can be
replayed, and the replay never finds a runtime that is out of range.
-/

namespace ExtractionBench.Measurement

/-! ## The range of quantities -/

section Range

variable {α : Type} [Scalar α] {m : Measurement α}

/-- A result can be measured against if its costs are finite and its runtime is one. -/
theorem outOfRange?_eq_none_iff :
    m.outOfRange? = none ↔
      Scalar.isFinite m.tree = true ∧ Scalar.isFinite m.dag = true ∧ isRuntime m.micros = true := by
  unfold outOfRange?
  by_cases htree : Scalar.isFinite m.tree = true
  · by_cases hdag : Scalar.isFinite m.dag = true
    · by_cases htime : isRuntime m.micros = true <;> simp [htree, hdag, htime]
    · simp [htree, hdag]
  · simp [htree]

end Range

/-! ## One file -/

/-- A result that was read from a file and passed the check of its quantities. -/
structure Checked (path : Path) (m : Measurement Double) : Prop where
  inRange : m.outOfRange? = none
  file : m.file = path
  directory : m.directory = path.parent

variable {path : Path} {m : Measurement Double} {ms : List (Measurement Double)}

/-- A row of a table is checked before it becomes a result. -/
theorem checked_of_ofRow {row : List Char} (h : ofRow path row = .ok m) : Checked path m := by
  unfold ofRow at h
  split at h
  · simp only [bind_eq_ok_iff] at h
    obtain ⟨tree, -, dag, -, micros, -, h⟩ := h
    split at h
    · cases h
    · rename_i hrange
      cases h
      exact ⟨hrange, rfl, rfl⟩
  · cases h

/-- All results of a table are checked. -/
theorem checked_of_ofLines {number : Nat} {lines : List (List Char)}
    (h : ofLines path number lines = .ok ms) :
    ∀ m ∈ ms, Checked path m := by
  induction lines generalizing number ms with
  | nil =>
    cases h
    simp
  | cons line rest ih =>
    simp only [ofLines] at h
    split at h
    · exact ih h
    · split at h
      · rename_i first hrow
        obtain ⟨others, hothers, rfl⟩ := map_eq_ok_iff.mp h
        exact List.forall_mem_cons.mpr ⟨checked_of_ofRow hrow, ih hothers⟩
      · cases h

theorem demand_eq_ok_iff {α : Type} {field : Field} {value : Option α} {rest : List UInt8} {x : α} :
    demand field value rest = .ok x ↔ value = some x := by
  cases value with
  | none => exact iff_of_false nofun nofun
  | some y => simp [demand]

/-- Fields make up a result if all of them have been read. -/
theorem complete_eq_ok_iff {fs : Fields} {rest : List UInt8} :
    fs.complete path rest = .ok m ↔
      fs = ⟨some m.name, some m.extractor, some m.tree, some m.dag, some m.micros⟩ ∧
        m.file = path ∧ m.directory = path.parent := by
  unfold Fields.complete
  simp only [bind_eq_ok_iff, demand_eq_ok_iff]
  constructor
  · rintro ⟨name, hname, extractor, hextractor, tree, htree, dag, hdag, micros, hmicros, h⟩
    cases h
    cases fs
    simp_all
  · rintro ⟨rfl, rfl, hdirectory⟩
    refine ⟨_, rfl, _, rfl, _, rfl, _, rfl, _, rfl, ?_⟩
    rw [← hdirectory]
    rfl

/-- A result is noted under the file that it was read from. -/
theorem provenance_of_complete {fs : Fields} {rest : List UInt8}
    (h : fs.complete path rest = .ok m) :
    m.file = path ∧ m.directory = path.parent :=
  (complete_eq_ok_iff.mp h).2

theorem refuseValue_ne_ok {α : Type} {expected : Json.Expected} {input : List UInt8} {a : α} :
    refuseValue expected input ≠ .ok a := by
  -- Whatever is read of the value before it is refused, what follows is an error.
  have hstops : ∀ {β : Type} (x : Except Json.Stop β) (stop : β → Json.Stop),
      (x >>= fun b => .error (stop b)) ≠ (.ok a : Except Json.Stop α) := by
    intro β x stop h
    obtain ⟨_, -, h⟩ := bind_eq_ok_iff.mp h
    cases h
  intro h
  cases input with
  | nil => cases h
  | cons b rest =>
    simp only [refuseValue] at h
    split_ifs at h
    · exact hstops _ _ h
    · exact hstops _ _ h
    · exact hstops _ _ h
    · exact hstops _ _ h
    · exact hstops _ _ h
    · exact hstops _ _ h
    · cases h
    · cases h
    · cases h

theorem provenance_of_fields {read : Except Json.Stop (Fields × List UInt8)} {rest : List UInt8}
    (h : (do
      let (fs, rest) ← read
      let m ← fs.complete path rest
      return (m, rest)) = .ok (m, rest)) : m.file = path ∧ m.directory = path.parent := by
  obtain ⟨⟨fs, rest⟩, -, h⟩ := bind_eq_ok_iff.mp h
  obtain ⟨_, hcomplete, h⟩ := bind_eq_ok_iff.mp h
  cases h
  exact provenance_of_complete hcomplete

/-- A result that is read from a text is noted under the path of that text. -/
theorem provenance_of_readResult {fuel : Nat} {input rest : List UInt8}
    (h : readResult fuel path input = .ok (m, rest)) :
    m.file = path ∧ m.directory = path.parent := by
  unfold readResult at h
  split at h
  · cases h
  · split_ifs at h
    · exact provenance_of_fields h
    · exact provenance_of_fields h
    · exact absurd h refuseValue_ne_ok

/-- A result is noted under the path that its text was read for. -/
theorem provenance_of_ofJson {bytes : List UInt8} (h : ofJson path bytes = .ok m) :
    m.file = path ∧ m.directory = path.parent := by
  obtain ⟨⟨m', rest⟩, hread, h⟩ := bind_eq_ok_iff.mp (mapError_eq_ok_iff.mp h)
  obtain ⟨_, -, h⟩ := bind_eq_ok_iff.mp h
  cases h
  exact provenance_of_readResult hread

/-- Whatever is read from a file has been checked. -/
theorem checked_of_ofFile {tree : FileTree} (h : ofFile tree path = .ok ms) :
    ∀ m ∈ ms, Checked path m := by
  unfold ofFile at h
  split at h
  · split at h
    · exact checked_of_ofLines h
    · cases h
  · split at h
    · cases h
    · cases h
    · split at h
      · cases h
      · rename_i m hjson
        split at h
        · cases h
        · rename_i hrange
          cases h
          obtain ⟨hfile, hdirectory⟩ := provenance_of_ofJson hjson
          exact List.forall_mem_singleton.mpr ⟨hrange, hfile, hdirectory⟩

/-! ## Several files -/

/-- However files that cannot be loaded are treated, each result is one of a given file. -/
theorem checked_of_ofFiles {tree : FileTree} {policy : LoadPolicy} {paths : List Path}
    (h : (ofFiles tree policy paths).result = .ok ms) :
    ∀ m ∈ ms, ∃ path ∈ paths, Checked path m := by
  induction paths generalizing ms with
  | nil =>
    cases h
    simp
  | cons path rest ih =>
    have hrest : ∀ {others}, (ofFiles tree policy rest).result = .ok others →
        ∀ m ∈ others, ∃ p ∈ path :: rest, Checked p m := by
      intro others hothers m hm
      obtain ⟨p, hp, hchecked⟩ := ih hothers m hm
      exact ⟨p, List.mem_cons_of_mem path hp, hchecked⟩
    simp only [ofFiles] at h
    split at h
    · rename_i found hfound
      obtain ⟨others, hothers, rfl⟩ := map_eq_ok_iff.mp h
      intro m hm
      rcases List.mem_append.mp hm with hm | hm
      · exact ⟨path, List.mem_cons_self, checked_of_ofFile hfound m hm⟩
      · exact hrest hothers m hm
    · split at h
      · cases h
      · exact hrest h

/-! ## The cap on dag costs -/

theorem isFinite_dagCap : (dagCap : Double).isFinite = true := by decide +kernel

/-- A checked result is still one with its dag cost clamped. -/
theorem Checked.clamp (h : Checked path m) : Checked path m.clamp := by
  obtain ⟨htree, hdag, htime⟩ := outOfRange?_eq_none_iff.mp h.inRange
  unfold Measurement.clamp
  split
  · exact ⟨outOfRange?_eq_none_iff.mpr ⟨htree, isFinite_dagCap, htime⟩, h.file, h.directory⟩
  · exact h

/-- No dag cost is above the cap once it is clamped. -/
theorem Checked.dag_clamp_le (h : Checked path m) : m.clamp.dag ≤ dagCap := by
  obtain ⟨-, hdag, -⟩ := outOfRange?_eq_none_iff.mp h.inRange
  unfold Measurement.clamp
  split
  · show (dagCap : Double) ≤ dagCap
    decide +kernel
  · -- The cap is not at most a NaN either, so the cost has to be known to be finite.
    rename_i hbelow
    exact Double.le_of_not_le isFinite_dagCap hdag hbelow

/-- What is loaded was checked in the file of one of the paths, and clamped if that was asked
for. -/
theorem checked_of_load {tree : FileTree} {paths : List Path} {config : LoadConfig}
    (h : (load tree paths config).result = .ok ms) :
    ∀ m ∈ ms, (∃ path ∈ paths, Checked path m) ∧ (config.noClamp = false → m.dag ≤ dagCap) := by
  obtain ⟨stored, hstored, rfl⟩ := map_eq_ok_iff.mp h
  have hchecked := checked_of_ofFiles hstored
  cases config.noClamp with
  | true => exact fun m hm => ⟨hchecked m hm, fun hclamp => by cases hclamp⟩
  | false =>
    intro m hm
    obtain ⟨m', hm', rfl⟩ := List.mem_map.mp hm
    obtain ⟨path, hpath, h'⟩ := hchecked m' hm'
    exact ⟨⟨path, hpath, h'.clamp⟩, fun _ => h'.dag_clamp_le⟩

/-! ## What follows for the replay -/

/-- What is loaded has finite costs and a finite runtime that is not negative, is noted under one of
the given files and its directory, and has a dag cost up to the cap unless that is switched off. So
neither curves nor the curve of any selection of it are ever refused for a quantity out of range. -/
theorem loaded_in_range {tree : FileTree} {paths : List Path} {config : LoadConfig}
    (h : (load tree paths config).result = .ok ms) :
    (∀ m ∈ ms, m.tree.isFinite = true ∧ m.dag.isFinite = true ∧
      (m.micros.isFinite = true ∧ ((0 : Nat) : Double) ≤ m.micros) ∧
      m.file ∈ paths ∧ m.directory = m.file.parent ∧
      (config.noClamp = false → m.dag ≤ ((1000 : Nat) : Double))) ∧
    ∀ part, part ⊆ ms → ∀ path benchmark extractor quantity value,
      (∀ reference excluded, FairShare.curves part reference excluded
        ≠ .error (.outOfRange path benchmark extractor quantity value)) ∧
      ∀ reference : FairShare.Reference Double, FairShare.curvePoints reference part
        ≠ .error (.outOfRange path benchmark extractor quantity value) := by
  have hloaded := checked_of_load h
  have hrange : ∀ m ∈ ms, Scalar.isFinite m.tree = true ∧ Scalar.isFinite m.dag = true ∧
      isRuntime m.micros = true := by
    intro m hm
    obtain ⟨⟨_, _, hchecked⟩, -⟩ := hloaded m hm
    exact outOfRange?_eq_none_iff.mp hchecked.inRange
  have hruns : ∀ part, part ⊆ ms → ¬ ∃ m ∈ part, isRuntime m.micros = false := by
    rintro part hpart ⟨m, hm, hfalse⟩
    obtain ⟨-, -, htime⟩ := hrange m (hpart hm)
    rw [htime] at hfalse
    cases hfalse
  refine ⟨fun m hm => ?_, fun part hpart path benchmark extractor quantity value => ⟨?_, ?_⟩⟩
  · obtain ⟨⟨path, hpath, hchecked⟩, hcap⟩ := hloaded m hm
    obtain ⟨htree, hdag, htime⟩ := hrange m hm
    obtain ⟨hfinite, hnonneg⟩ := Bool.and_eq_true_iff.mp htime
    have hfile : m.file = path := hchecked.file
    exact ⟨htree, hdag, ⟨hfinite, of_decide_eq_true hnonneg⟩, hfile ▸ hpath,
      hfile ▸ hchecked.directory, hcap⟩
  · intro reference excluded hfault
    exact hruns part hpart (FairShare.exists_not_isRuntime_of_curves hfault)
  · intro reference hfault
    exact hruns part hpart (FairShare.exists_not_isRuntime_of_curvePoints hfault)

/-- A result in JSON with a great dag cost, a table, and a file that is not there. -/
def someFiles : FileTree :=
  ⟨[], [(["a.json"], .file (.ofText "[\"data/egg/a.json\", \"greedy\", 1, 2e9, 30]")),
    (["t.csv"], .file (.ofText "file, extractor, tree, dag, time (us)\nb, ilp, 2, 5, 7\n"))]⟩

theorem someFiles_in_range :
    ∃ ms, (load someFiles [⟨"a.json"⟩, ⟨"none.json"⟩, ⟨"t.csv"⟩] { policy := .lenient }).result =
      .ok ms ∧
      ms.length = 2 ∧ (∀ m ∈ ms, m.dag ≤ ((1000 : Nat) : Double)) ∧
      ∀ path benchmark extractor quantity value,
        FairShare.curves ms "ilp" [] ≠
          .error (.outOfRange path benchmark extractor quantity value) := by
  let ms : List (Measurement Double) :=
    [⟨"data/egg/a.json", "greedy", .ofNat 1, .ofNat 1000, .ofNat 30, ⟨"a.json"⟩, ⟨""⟩⟩,
      ⟨"b", "ilp", .ofNat 2, .ofNat 5, .ofNat 7, ⟨"t.csv"⟩, ⟨""⟩⟩]
  have hload : (load someFiles [⟨"a.json"⟩, ⟨"none.json"⟩, ⟨"t.csv"⟩]
      { policy := .lenient }).result = .ok ms :=
    toOption_eq_some_iff.mp (by decide +kernel)
  obtain ⟨hrange, hcurves⟩ := loaded_in_range hload
  refine ⟨ms, hload, rfl, fun m hm => (hrange m hm).2.2.2.2.2 rfl,
    fun path benchmark extractor quantity value => ?_⟩
  exact (hcurves ms (List.Subset.refl ms) path benchmark extractor quantity value).1 "ilp" []

end ExtractionBench.Measurement
