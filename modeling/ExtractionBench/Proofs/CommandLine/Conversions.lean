import Mathlib.Tactic
import ExtractionBench.CommandLine.Programs
import ExtractionBench.Proofs.EGraph.Legacy
import ExtractionBench.Proofs.Files.Written

/-!
# Files converted one after the other

Each conversion starts from what the ones before it left and puts one file. The first one that is
refused ends the run, and changes nothing. As long as no JSON is written over a file that is to be
converted, every conversion finds what it would have found at the start; so a second run does what
the first did, and changes nothing.
-/

namespace ExtractionBench.CommandLine

open EGraph (convertFile ofLegacy outputPath)

variable {t u : FileTree} {input : Path} {write : Place × Entry} {writes : List (Place × Entry)}
  {inputs done rest : List Path} {fault : Fault Double} {finish : Finish}

/-! ## One file -/

/-- A file can be converted: its text is in the older format, and the path for the JSON leads to a
file or to nothing. The JSON is what is put there. -/
inductive Converts (t : FileTree) (input : Path) : Place × Entry → Prop
  | intro {contents : String} {g : EGraph} {place : Place} (hread : t.readText input = .ok contents)
      (hg : ofLegacy contents input = .ok g) (hplace : t.target (outputPath input) = .ok place) :
      Converts t input (place, .file (.ofText g.jsonText))

/-- A file cannot be converted. Its text is looked at before the place for the JSON. -/
inductive Refuses (t : FileTree) (input : Path) : Fault Double → Prop
  | unreadable {problem : FileProblem} (hread : t.readText input = .error problem) :
      Refuses t input (.file input problem)
  | malformed {contents : String} {before after : List (List Char)} {raw : List Char}
      {defect : LineDefect Double}
      (hread : t.readText input = .ok contents)
      (hlines : Text.lines contents.toList = before ++ raw :: after)
      (hbefore : ∀ line ∈ before, ∃ l, EGraph.Line.read line = .ok l)
      (hraw : EGraph.Line.read raw = .error defect) :
      Refuses t input (.line input (1 + before.length) defect)
  | unwritable {contents : String} {g : EGraph} {problem : FileProblem}
      (hread : t.readText input = .ok contents)
      (hg : ofLegacy contents input = .ok g)
      (hplace : t.target (outputPath input) = .error problem) :
      Refuses t input (.file (outputPath input) problem)

/-- A conversion reports the path for the JSON, and only puts the JSON. -/
theorem convertFile_of_converts (h : Converts t input write) :
    convertFile t input = .ok (outputPath input, t.put write.1 write.2) := by
  cases h with
  | intro hread hg hplace =>
    simp only [convertFile, FileTree.write, hread, hg, hplace, bind, Except.bind, Except.mapError,
      pure, Except.pure]

theorem convertFile_of_refuses (h : Refuses t input fault) :
    convertFile t input = .error fault := by
  cases h with
  | unreadable hread => simp only [convertFile, hread, bind, Except.bind, Except.mapError]
  | @malformed contents _ _ _ _ hread hlines hbefore hraw =>
    have hg : ofLegacy contents input = .error _ :=
      EGraph.ofLegacy_eq_error_iff.mpr ⟨_, _, _, _, hlines, hbefore, hraw, rfl⟩
    simp only [convertFile, hread, hg, bind, Except.bind, Except.mapError]
  | unwritable hread hg hplace =>
    simp only [convertFile, FileTree.write, hread, hg, hplace, bind, Except.bind, Except.mapError]

/-- An input is converted or refused. -/
theorem converts_or_refuses (t : FileTree) (input : Path) :
    (∃ write, Converts t input write) ∨ ∃ fault, Refuses t input fault := by
  cases hread : t.readText input with
  | error problem => exact .inr ⟨_, .unreadable hread⟩
  | ok contents =>
    cases hg : ofLegacy contents input with
    | error fault =>
      obtain ⟨before, raw, after, defect, hlines, hbefore, hraw, rfl⟩ :=
        EGraph.ofLegacy_eq_error_iff.mp hg
      exact .inr ⟨_, .malformed hread hlines hbefore hraw⟩
    | ok g =>
      cases hplace : t.target (outputPath input) with
      | error problem => exact .inr ⟨_, .unwritable hread hg hplace⟩
      | ok place => exact .inl ⟨_, .intro hread hg hplace⟩

namespace Converts

theorem target_eq (h : Converts t input write) : t.target (outputPath input) = .ok write.1 := by
  cases h with
  | intro _ _ hplace => exact hplace

theorem resolve_eq (h : Converts t input write) : t.resolve (outputPath input) = .ok write.1 :=
  (FileTree.target_eq_ok_iff.mp h.target_eq).1

theorem not_directory (h : Converts t input write) : t.at? write.1 ≠ some .directory :=
  (FileTree.target_eq_ok_iff.mp h.target_eq).2

theorem at?_put_self (h : Converts t input write) :
    (t.put write.1 write.2).at? write.1 = some write.2 := by
  refine FileTree.at?_put_self t write.2 ?_
  intro hroot
  exact h.not_directory (by rw [hroot]; rfl)

end Converts

/-! ## A run -/

/-- Conversions one after the other, each on the tree that the ones before it left, and what they
put. -/
inductive Run : FileTree → List Path → List (Place × Entry) → Prop
  | nil (t : FileTree) : Run t [] []
  | cons {t : FileTree} {input : Path} {write : Place × Entry} {rest : List Path}
      {writes : List (Place × Entry)}
      (h : Converts t input write) (hrest : Run (t.put write.1 write.2) rest writes) :
      Run t (input :: rest) (write :: writes)

/-- What is printed before some files are converted. -/
def announced : List Path → String
  | [] => ""
  | input :: rest => "converting " ++ input.text ++ "\n" ++ announced rest

/-- How the conversion of some files ends: all are converted, or those in front of one that is
refused. -/
inductive Ending (t : FileTree) (inputs : List Path) : Finish → Prop
  | complete {writes : List (Place × Entry)} (hrun : Run t inputs writes) :
      Ending t inputs ⟨0, announced inputs, "", t.putAll writes⟩
  | stopped {done later : List Path} {failing : Path} {writes : List (Place × Entry)}
      {fault : Fault Double}
      (hinputs : inputs = done ++ failing :: later) (hrun : Run t done writes)
      (hfault : Refuses (t.putAll writes) failing fault) :
      Ending t inputs ⟨1, announced (done ++ [failing]), faultLine fault, t.putAll writes⟩

/-- An input that is converted leaves the others to be converted in the tree with its output. -/
theorem convertEach_cons_of_converts (h : Converts t input write) (rest : List Path) :
    convertEach t (input :: rest) =
      { convertEach (t.put write.1 write.2) rest with
        output :=
  "converting " ++ input.text ++ "\n" ++ (convertEach (t.put write.1 write.2) rest).output } := by
  rw [convertEach, convertFile_of_converts h]

/-- An input that is refused ends the run. -/
theorem convertEach_cons_of_refuses (h : Refuses t input fault) (rest : List Path) :
    convertEach t (input :: rest) = ⟨1, announced [input], faultLine fault, t⟩ := by
  rw [convertEach, convertFile_of_refuses h]
  simp [announced]

/-- The files are converted in order, up to the first that is refused. -/
theorem ending_convertEach (t : FileTree) (inputs : List Path) :
    Ending t inputs (convertEach t inputs) := by
  induction inputs generalizing t with
  | nil => exact .complete (.nil t)
  | cons input rest ih =>
    rcases converts_or_refuses t input with ⟨write, hwrite⟩ | ⟨fault, hfault⟩
    · have hrest := ih (t.put write.1 write.2)
      rw [convertEach_cons_of_converts hwrite]
      generalize convertEach (t.put write.1 write.2) rest = others at hrest
      cases hrest with
      | complete hrun => exact .complete (.cons hwrite hrun)
      | stopped hinputs hrun hfault =>
        subst hinputs
        exact .stopped rfl (.cons hwrite hrun) hfault
    · rw [convertEach_cons_of_refuses hfault]
      exact .stopped rfl (.nil t) hfault

theorem announced_append (done rest : List Path) :
    announced (done ++ rest) = announced done ++ announced rest := by
  induction done with
  | nil => simp [announced]
  | cons input done ih => simp [announced, ih, String.append_assoc]

/-- What is converted at first leaves the rest to be converted in the tree with all outputs. -/
theorem convertEach_append_of_run (h : Run t done writes) (rest : List Path) :
    convertEach t (done ++ rest) =
      { convertEach (t.putAll writes) rest with
        output := announced done ++ (convertEach (t.putAll writes) rest).output } := by
  induction h with
  | nil t => simp [announced]
  | cons hwrite _ ih =>
    rw [List.cons_append, convertEach_cons_of_converts hwrite, ih]
    simp [announced, String.append_assoc]

/-- A run ends in one way only. -/
theorem convertEach_eq_of_ending (h : Ending t inputs finish) : convertEach t inputs = finish := by
  cases h with
  | complete hrun =>
    have hall := convertEach_append_of_run hrun []
    rw [List.append_nil] at hall
    rw [hall]
    simp [convertEach]
  | stopped hinputs hrun hfault =>
    rw [hinputs, convertEach_append_of_run hrun, convertEach_cons_of_refuses hfault,
      announced_append]

/-! ## A second run -/

/-- No path for the JSON of an input leads to the place that an input leads to, however the two are
written. -/
def Apart (t : FileTree) (inputs : List Path) : Prop :=
  ∀ p ∈ inputs, ∀ q ∈ inputs, ∀ place, t.resolve (outputPath p) = .ok place →
    t.resolve q ≠ .ok place

/-- Some inputs are in `u` what they are in `t`, and so are the directories. -/
structure Undisturbed (inputs : List Path) (t u : FileTree) :
    Prop extends FileTree.SameDirectories t u where
  at?_eq : ∀ q ∈ inputs, ∀ place, t.resolve q = .ok place → u.at? place = t.at? place

namespace Undisturbed

theorem refl (inputs : List Path) (t : FileTree) : Undisturbed inputs t t :=
  ⟨.refl t, fun _ _ _ _ => rfl⟩

theorem readText_eq_ok_iff (h : Undisturbed inputs t u) (hinput : input ∈ inputs)
    {contents : String} :
    u.readText input = .ok contents ↔ t.readText input = .ok contents := by
  rw [FileTree.readText_eq_ok_iff, FileTree.readText_eq_ok_iff]
  refine exists_congr fun place => exists_congr fun content => ?_
  rw [h.resolve_eq_ok_iff]
  refine and_congr_right fun hplace => ?_
  rw [h.at?_eq input hinput place hplace]

/-- Undisturbed inputs are converted alike. -/
theorem converts_iff (h : Undisturbed inputs t u) (hinput : input ∈ inputs) :
    Converts u input write ↔ Converts t input write := by
  constructor
  · rintro ⟨hread, hg, hplace⟩
    exact .intro ((h.readText_eq_ok_iff hinput).mp hread) hg (h.target_eq_ok_iff.mp hplace)
  · rintro ⟨hread, hg, hplace⟩
    exact .intro ((h.readText_eq_ok_iff hinput).mpr hread) hg (h.target_eq_ok_iff.mpr hplace)

/-- A conversion leaves the inputs as they are, if its JSON is apart from them. -/
theorem put (h : Undisturbed inputs t u) (hapart : Apart t inputs) (hinput : input ∈ inputs)
    (hwrite : Converts u input write) : Undisturbed inputs t (u.put write.1 write.2) := by
  have hdirectory := hwrite.not_directory
  have hplace := h.resolve_eq_ok_iff.mp hwrite.resolve_eq
  cases hwrite with
  | @intro _ _ place _ _ _ =>
    refine ⟨h.toSameDirectories.put hdirectory, ?_⟩
    intro q hq other hother
    have hne : other ≠ place := by
      rintro rfl
      exact hapart input hinput q hq _ hplace hother
    rw [FileTree.at?_put_of_ne u _ hne, h.at?_eq q hq other hother]

/-- What a run does can be told from the tree that undisturbed inputs come from. -/
theorem forall₂_of_run (h : Undisturbed inputs t u) (hapart : Apart t inputs)
    (hdone : ∀ input ∈ done, input ∈ inputs) (hrun : Run u done writes) :
    List.Forall₂ (Converts t) done writes ∧ Undisturbed inputs t (u.putAll writes) := by
  induction hrun with
  | nil u => exact ⟨.nil, h⟩
  | cons hwrite _ ih =>
    obtain ⟨hinput, hrest⟩ := List.forall_mem_cons.mp hdone
    obtain ⟨hall, hafter⟩ := ih (h.put hapart hinput hwrite) hrest
    exact ⟨.cons ((h.converts_iff hinput).mp hwrite) hall, hafter⟩

/-- Where no output disturbs an input, the inputs that are converted each alone are converted one
after the other. -/
theorem run_of_forall₂ (h : Undisturbed inputs t u) (hapart : Apart t inputs)
    (hdone : ∀ input ∈ done, input ∈ inputs) (hall : List.Forall₂ (Converts t) done writes) :
    Run u done writes := by
  induction hall generalizing u with
  | nil => exact .nil u
  | cons hwrite _ ih =>
    obtain ⟨hinput, hrest⟩ := List.forall_mem_cons.mp hdone
    have hwrite := (h.converts_iff hinput).mpr hwrite
    exact .cons hwrite (ih (h.put hapart hinput hwrite) hrest)

end Undisturbed

/-- A run whose JSON is apart from the inputs can be repeated on what it left. -/
theorem run_again (hapart : Apart t inputs) (hdone : ∀ input ∈ done, input ∈ inputs)
    (h : Run t done writes) :
    Run (t.putAll writes) done writes := by
  obtain ⟨hall, hafter⟩ := (Undisturbed.refl inputs t).forall₂_of_run hapart hdone h
  exact hafter.run_of_forall₂ hapart hdone hall

/-- Where no output disturbs an input, a second run ends as the first one did. -/
theorem ending_again (hapart : Apart t inputs) (h : Ending t inputs finish) :
    Ending finish.tree inputs finish := by
  cases h with
  | @complete writes hrun =>
    have hagain := Ending.complete (run_again hapart (fun _ => id) hrun)
    rwa [FileTree.putAll_putAll] at hagain
  | @stopped done later failing writes fault hinputs hrun hfault =>
    have hdone : ∀ input ∈ done, input ∈ inputs := by
      intro input hinput
      rw [hinputs]
      exact List.mem_append_left _ hinput
    have hfault' : Refuses ((t.putAll writes).putAll writes) failing fault := by
      rwa [FileTree.putAll_putAll]
    have hagain := Ending.stopped hinputs (run_again hapart hdone hrun) hfault'
    rwa [FileTree.putAll_putAll] at hagain

/-- The files are converted in order, each from what the conversions before it left; each puts the
JSON where its path leads to, and changes nothing else; the first that is refused ends the run. If
no path for JSON leads to an input, a second run ends as the first did, with the files as the first
left them. -/
theorem converted_in_order (t : FileTree) (inputs : List Path) :
    Ending t inputs (convertEach t inputs) ∧
      (∀ u input write, Converts u input write →
        u.resolve (outputPath input) = .ok write.1 ∧
          (u.put write.1 write.2).workplace = u.workplace ∧
          (u.put write.1 write.2).at? write.1 = some write.2 ∧
            ∀ other, other ≠ write.1 → (u.put write.1 write.2).at? other = u.at? other) ∧
      (Apart t inputs → convertEach (convertEach t inputs).tree inputs = convertEach t inputs) ∧
      ∀ words, readConvert words = .ok inputs → convert t words = convertEach t inputs := by
  have hending := ending_convertEach t inputs
  refine ⟨hending, ?_, ?_, ?_⟩
  · intro u input write hwrite
    refine ⟨hwrite.resolve_eq, rfl, hwrite.at?_put_self, ?_⟩
    intro other hother
    exact FileTree.at?_put_of_ne u write.2 hother
  · intro hapart
    exact convertEach_eq_of_ending (ending_again hapart hending)
  · intro words hwords
    rw [convert, hwords]

/-- Two files in the older format. -/
def beside : FileTree :=
  ⟨[], [(["a.csv"], .file (.ofText "0, 1, x\n")), (["b.csv"], .file (.ofText "0, 2, y\n"))]⟩

theorem beside_converted_twice :
    let inputs : List Path := [⟨"a.csv"⟩, ⟨"./b.csv"⟩]
    let first := convertEach beside inputs
    first.status = 0 ∧
      first.tree.entries.map (·.1) = [["a.csv"], ["b.csv"], ["a.json"], ["b.json"]] ∧
      convertEach first.tree inputs = first := by
  refine ⟨by decide +kernel, by decide +kernel, ?_⟩
  refine (converted_in_order beside [⟨"a.csv"⟩, ⟨"./b.csv"⟩]).2.2.1 ?_
  have hdistinct : ∀ p ∈ [(⟨"a.csv"⟩ : Path), ⟨"./b.csv"⟩], ∀ q ∈ [(⟨"a.csv"⟩ : Path), ⟨"./b.csv"⟩],
      (beside.resolve (outputPath p)).toOption ≠ (beside.resolve q).toOption := by
    decide +kernel
  intro p hp q hq place hplace hsame
  exact hdistinct p hp q hq (by rw [hplace, hsame])

/-- Two files in the older format. The JSON of the second is written over the first, under a name
that is written in another way. -/
def entangled : FileTree :=
  ⟨[], [(["x.csv.json"], .file (.ofText "0, 1, x\n")),
    (["x.c.csvsv"], .file (.ofText "0, 1, x\n"))]⟩

/-- That no input is called as the JSON is not enough for a second run to end as the first did. -/
theorem second_run_refused :
    let inputs : List Path := [⟨"./x.csv.json"⟩, ⟨"x.c.csvsv"⟩]
    let first := convertEach entangled inputs
    (∀ p ∈ inputs, ∀ q ∈ inputs, outputPath p ≠ q ∧ (outputPath p).same q = false) ∧
      first.status = 0 ∧
      (convertEach first.tree inputs).status = 1 := by
  decide +kernel

end ExtractionBench.CommandLine
