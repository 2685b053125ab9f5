import Mathlib.Tactic
import ExtractionBench.CommandLine.Programs
import ExtractionBench.Proofs.Files.Written
import ExtractionBench.Proofs.Report.Repetition

/-!
# Reports with and without charts

A chart is drawn when the text of a report is complete. So a report that is asked for without charts
says whether there is a report and what it says, and the same report with charts only adds a file
and the line that tells of it.
-/

namespace ExtractionBench.Report

variable {config : Config} {tree after : FileTree} {ms : List (Measurement Double)} {d : Document}
  {figure : Figure}
  {text : String} {path : Path} {content : Content}

/-! ## One file -/

/-- A file was written where a path leads to, and nothing else has changed. -/
structure OnlyWritten (tree after : FileTree) (path : Path) (content : Content) : Prop where
  workplace : after.workplace = tree.workplace
  reads : after.read path = .ok content
  others : ∃ place, tree.resolve path = .ok place ∧ ∀ other, other ≠ place →
    after.at? other = tree.at? other

/-- A file that is written is the only change. -/
theorem onlyWritten_of_write (h : tree.write path content = .ok after) :
    OnlyWritten tree after path content := by
  obtain ⟨place, htarget, hafter⟩ := bind_eq_ok_iff.mp h
  cases hafter
  obtain ⟨hresolve, hdirectory⟩ := FileTree.target_eq_ok_iff.mp htarget
  have hroot : place ≠ [] := by
    rintro rfl
    exact hdirectory rfl
  have hresolve' : (tree.put place (.file content)).resolve path = .ok place :=
    (((FileTree.SameDirectories.refl tree).put hdirectory).resolve_eq_ok_iff).mpr hresolve
  refine ⟨rfl, ?_, place, hresolve, ?_⟩
  · have hat := tree.at?_put_self (.file content) hroot
    simp only [FileTree.read, FileTree.open?, hresolve', hat, bind, Except.bind]
  · intro other hother
    exact tree.at?_put_of_ne (.file content) hother

/-! ## The chart of a report -/

/-- This is the chart that goes with a report on some results. Comparisons have none, nor has an
improvement over time without curves, nor have suites without ratios. -/
def Shows (config : Config) (ms : List (Measurement Double)) (figure : Figure) : Prop :=
  match config.mode with
  | .ratioSummary => False
  | .perDirectory => False
  | .timeBudget =>
    ∃ curves, FairShare.curves ms config.reference config.excluded = .ok curves ∧ curves ≠ [] ∧
      figure = ⟨"dag_cost_improvement.svg", .improvement curves⟩
  | .runtimes =>
    figure = ⟨"extractor_times.svg", .runtimes (Benchset.runtimes ms (Measurement.extractors ms))⟩
  | .benchsets => suiteRatios config ms ≠ [] ∧
      figure = ⟨"benchset_dag_cost.svg", .benchsets (suiteRatios config ms) config.reference⟩

/-- An improvement over time has a chart exactly if it has curves. -/
theorem figure_of_timeBudget (h : timeBudget config ms = .ok d) :
    d.figure = some figure ↔
      ∃ curves, FairShare.curves ms config.reference config.excluded = .ok curves ∧ curves ≠ [] ∧
        figure = ⟨"dag_cost_improvement.svg", .improvement curves⟩ := by
  obtain ⟨curves, hcurves, rfl⟩ := map_eq_ok_iff.mp h
  simp only [hcurves, Except.ok.injEq, exists_eq_left']
  cases curves with
  | nil => simp [Document.plain]
  | cons c curves => simp [eq_comm]

/-- A report on suites has a chart exactly if it has ratios. -/
theorem figure_of_benchsets :
    (benchsets config ms).figure = some figure ↔
      suiteRatios config ms ≠ [] ∧
        figure =
          ⟨"benchset_dag_cost.svg", .benchsets (suiteRatios config ms) config.reference⟩ := by
  unfold benchsets
  by_cases hnil : suiteRatios config ms = []
  · simp [hnil, Document.plain]
  · rw [if_neg (by simpa using hnil), Option.some_inj, eq_comm]
    exact (and_iff_right hnil).symm

/-- A report has the chart that goes with its results, and no other. -/
theorem figure_of_body (h : body config ms = .ok d) :
    d.figure = some figure ↔ Shows config ms figure := by
  unfold body at h
  unfold Shows
  cases hmode : config.mode with
  | ratioSummary =>
    rw [hmode] at h
    obtain ⟨text, -, rfl⟩ := map_eq_ok_iff.mp h
    simp [Document.plain]
  | perDirectory =>
    rw [hmode] at h
    obtain ⟨text, -, rfl⟩ := map_eq_ok_iff.mp h
    simp [Document.plain]
  | timeBudget =>
    rw [hmode] at h
    exact figure_of_timeBudget h
  | runtimes =>
    rw [hmode] at h
    obtain ⟨lines, -, rfl⟩ := map_eq_ok_iff.mp h
    exact Option.some_inj.trans eq_comm
  | benchsets =>
    rw [hmode] at h
    cases h
    exact figure_of_benchsets

/-! ## With and without -/

/-- What a report that says `text` without charts comes to with them: it says the same if it has no
chart, and one line more where the chart was written; it is refused where the chart cannot be
written. -/
inductive Charted (config : Config) (tree : FileTree) (ms : List (Measurement Double))
    (text : String) :
    Except (Fault Double) (String × FileTree) → Prop
  | plain (hnone : ∀ figure, ¬ Shows config ms figure) :
      Charted config tree ms text (.ok (text, tree))
  | written {figure : Figure} {after : FileTree} (hfigure : Shows config ms figure)
      (hwritten :
        OnlyWritten tree after (config.outDir.join ⟨figure.name⟩) (.drawing figure.plot.draw)) :
      Charted config tree ms text
        (.ok (text ++ "Wrote " ++ (config.outDir.join ⟨figure.name⟩).text ++ "\n", after))
  | refused {figure : Figure} {problem : FileProblem} (hfigure : Shows config ms figure)
      (hproblem : tree.target (config.outDir.join ⟨figure.name⟩) = .error problem) :
      Charted config tree ms text (.error (.chart (config.outDir.join ⟨figure.name⟩) problem))

theorem publish_noCharts (h : config.noCharts = true) (tree : FileTree) (d : Document) :
    publish config tree d = .ok (d.text, tree) := by
  unfold publish
  cases d.figure with
  | none => rfl
  | some figure => simp [h]

/-- A report with a chart has it written beside its text. -/
theorem charted_publish (h : config.noCharts = false) (hbody : body config ms = .ok d)
    (line : String) :
    Charted config tree ms (line ++ d.text)
      (publish config tree { d with text := line ++ d.text }) := by
  unfold publish
  cases hfigure : d.figure with
  | none =>
    refine .plain fun figure hshows => ?_
    have hsome := (figure_of_body hbody).mpr hshows
    rw [hfigure] at hsome
    cases hsome
  | some figure =>
    have hshows := (figure_of_body hbody).mp hfigure
    simp only [h, Bool.false_eq_true, if_false, Figure.path]
    cases hwrite : tree.write (config.outDir.join ⟨figure.name⟩) (.drawing figure.plot.draw) with
    | ok after => exact .written hshows (onlyWritten_of_write hwrite)
    | error problem =>
      refine .refused hshows ?_
      rcases bind_eq_error_iff.mp hwrite with htarget | ⟨_, _, hput⟩
      · exact htarget
      · cases hput

theorem report_of_body_error {fault : Fault Double}
    (h : body config (config.select ms) = .error fault) :
    (report config tree ms).result = .error fault := by
  rw [result_report, h]
  rfl

theorem report_of_body (h : body config (config.select ms) = .ok d) :
    (report config tree ms).result =
      publish config tree { d with text := loadedLine (config.select ms) ++ d.text } := by
  rw [result_report, h]
  rfl

/-- Without charts a report is its text alone. -/
theorem undrawn_of_body (h : body config (config.select ms) = .ok d) :
    (report { config with noCharts := true } tree ms).result =
      .ok (loadedLine (config.select ms) ++ d.text, tree) := by
  have hbody : body { config with noCharts := true } (config.select ms) = .ok d := h
  exact (report_of_body hbody).trans (publish_noCharts rfl tree _)

/-- A report that is refused without charts is refused with them, and in the same way. -/
theorem drawn_of_error {fault : Fault Double}
    (h : (report { config with noCharts := true } tree ms).result = .error fault) :
    (report { config with noCharts := false } tree ms).result = .error fault := by
  cases hbody : body config (config.select ms) with
  | error other =>
    have hundrawn : (report { config with noCharts := true } tree ms).result = .error other :=
      report_of_body_error hbody
    have hdrawn : (report { config with noCharts := false } tree ms).result = .error other :=
      report_of_body_error hbody
    rw [hdrawn, ← hundrawn, h]
  | ok d =>
    cases (undrawn_of_body hbody).symm.trans h

/-- A report that succeeds without charts succeeds with them, unless the chart cannot be written. -/
theorem drawn_of_ok
    (h : (report { config with noCharts := true } tree ms).result = .ok (text, after)) :
    after = tree ∧ Charted { config with noCharts := false } tree (config.select ms) text
      (report { config with noCharts := false } tree ms).result := by
  cases hbody : body config (config.select ms) with
  | error fault =>
    have hundrawn : (report { config with noCharts := true } tree ms).result = .error fault :=
      report_of_body_error hbody
    cases hundrawn.symm.trans h
  | ok d =>
    have hdrawn : body { config with noCharts := false } (config.select ms) = .ok d := hbody
    cases (undrawn_of_body hbody).symm.trans h
    refine ⟨rfl, ?_⟩
    rw [report_of_body hdrawn]
    exact charted_publish rfl hdrawn _

theorem not_shows_of_comparisons (hmode : config.mode = .ratioSummary ∨ config.mode = .perDirectory)
    (figure : Figure) :
    ¬ Shows config ms figure := by
  unfold Shows
  rcases hmode with hmode | hmode
  · rw [hmode]
    exact id
  · rw [hmode]
    exact id

theorem drawn_of_comparisons (hmode : config.mode = .ratioSummary ∨ config.mode = .perDirectory) :
    (report { config with noCharts := false } tree ms).result =
      (report { config with noCharts := true } tree ms).result := by
  cases h : (report { config with noCharts := true } tree ms).result with
  | error fault => exact drawn_of_error h
  | ok made =>
    obtain ⟨rfl, hcharted⟩ := drawn_of_ok h
    generalize (report { config with noCharts := false } made.2 ms).result = result at hcharted ⊢
    cases hcharted with
    | plain _ => rfl
    | written hfigure _ => exact absurd hfigure (not_shows_of_comparisons hmode _)
    | refused hfigure _ => exact absurd hfigure (not_shows_of_comparisons hmode _)

/-- The program changes files only where it succeeds. -/
theorem tree_of_status {words : List String} (h : (CommandLine.report tree words).status ≠ 0) :
    (CommandLine.report tree words).tree = tree := by
  unfold CommandLine.report at h ⊢
  cases hwords : CommandLine.readReport words with
  | error problem => rfl
  | ok config =>
    rw [hwords] at h
    cases hresult : (run config tree).result with
    | error fault => simp only [hresult]
    | ok made =>
      simp only [hresult] at h
      exact absurd rfl h

/-- Charts only add to a report. Without them it changes no file. Where it is refused, it is refused
with them in the same way. Where it is not, the report with charts has the same text if it has no
chart; else it writes that one file and says so in one more line, or is refused because the file
cannot be written. Comparisons have no chart. A program whose report is refused changes no file. -/
theorem charts_only_add (config : Config) (tree : FileTree) (ms : List (Measurement Double)) :
    let drawn : Config := { config with noCharts := false }
    let undrawn : Config := { config with noCharts := true }
    (report drawn tree ms).warnings = (report undrawn tree ms).warnings ∧
    (∀ fault, (report undrawn tree ms).result = .error fault →
      (report drawn tree ms).result = .error fault) ∧
    (∀ text after, (report undrawn tree ms).result = .ok (text, after) →
      after = tree ∧ Charted drawn tree (config.select ms) text (report drawn tree ms).result) ∧
    (config.mode = .ratioSummary ∨ config.mode = .perDirectory →
      (report drawn tree ms).result = (report undrawn tree ms).result) ∧
    ∀ words, (CommandLine.report tree words).status ≠ 0 →
      (CommandLine.report tree words).tree = tree := by
  intro drawn undrawn
  refine ⟨rfl, ?_, ?_, drawn_of_comparisons, ?_⟩
  · intro fault hfault
    exact drawn_of_error hfault
  · intro text after htext
    exact drawn_of_ok htext
  · intro words hstatus
    exact tree_of_status hstatus

/-- The runtimes of a single result, in an empty directory. -/
theorem eggRun_charted :
    let config : Config := { mode := .runtimes }
    let tree : FileTree := ⟨[], []⟩
    let ms := [eggRun "greedy" ⟨"out"⟩]
    let path := config.outDir.join ⟨"extractor_times.svg"⟩
    ∃ text after content, (report { config with noCharts := true } tree ms).result =
      .ok (text, tree) ∧
      (report { config with noCharts := false } tree ms).result =
        .ok (text ++ "Wrote " ++ path.text ++ "\n", after) ∧
      OnlyWritten tree after path content := by
  intro config tree ms path
  obtain ⟨⟨text, after⟩, htext⟩ :
    ∃ made, (report { config with noCharts := true } tree ms).result = .ok made :=
    never_refused (.inl rfl) rfl
  obtain ⟨-, -, hadds, -⟩ := charts_only_add config tree ms
  obtain ⟨rfl, hcharted⟩ := hadds text after htext
  generalize (report { config with noCharts := false } tree ms).result = result at hcharted ⊢
  cases hcharted with
  | plain hnone => exact absurd rfl (hnone _)
  | written hfigure hwritten =>
    cases hfigure
    exact ⟨_, _, _, htext, rfl, hwritten⟩
  | refused hfigure hproblem =>
    cases hfigure
    have htarget : (FileTree.target ⟨[], []⟩ path).toOption = some ["extractor_times.svg"] := by
      decide +kernel
    cases htarget.symm.trans (congrArg Except.toOption hproblem)

end ExtractionBench.Report
