import Mathlib.Tactic
import ExtractionBench.Proofs.Comparison.AllPairs
import ExtractionBench.Proofs.FairShare.Curves
import ExtractionBench.Proofs.Measurement.Grouping
import ExtractionBench.Proofs.Statistics.Existence
import ExtractionBench.Report.Run

/-!
# Repeated results in reports

A report refuses a repeated result if it looks up the results of that extractor by benchmark. The
comparisons look up every extractor that there is another one to compare with, and the improvement
over time the reference and whatever is measured against it. What is never looked up is never found
to be repeated: results that there is nothing to compare with, baselines that are left out, and any
result in a report of runtimes or of suites.
-/

namespace ExtractionBench.Report

open Measurement (ofExtractor extractors inDirectory)

/-! ## Repeated results -/

section Repeated

variable {α : Type} {ms : List (Measurement α)} {m m' : Measurement α}

/-- Two results of an extractor are for the same benchmark. -/
structure Repeated (ms : List (Measurement α)) (m m' : Measurement α) : Prop where
  sublist : [m, m'].Sublist ms
  name : m'.name = m.name
  extractor : m'.extractor = m.extractor

theorem Repeated.mem (h : Repeated ms m m') : m ∈ ms := h.sublist.subset List.mem_cons_self

theorem Repeated.mem_extractors (h : Repeated ms m m') : m.extractor ∈ extractors ms :=
  Measurement.mem_extractors_iff.mpr ⟨m, h.mem, rfl⟩

theorem Repeated.not_nodup (h : Repeated ms m m') :
    ¬ ((ofExtractor m.extractor ms).map (·.name)).Nodup := by
  intro hnodup
  have hsub : [m, m'].Sublist (ofExtractor m.extractor ms) := by
    have hfilter := h.sublist.filter (·.extractor == m.extractor)
    rwa [List.filter_eq_self.mpr (by simp [h.extractor])] at hfilter
  have hnames : [m.name, m'.name].Sublist ((ofExtractor m.extractor ms).map (·.name)) := hsub.map _
  have hpair : [m.name, m'.name].Nodup := hnodup.sublist hnames
  rw [h.name] at hpair
  simp at hpair

/-- Results that are repeated in one directory are repeated among the results there. -/
theorem Repeated.inDirectory (h : Repeated ms m m') (hsame : m.directory.same m'.directory = true) :
    Repeated (inDirectory m.directory ms) m m' := by
  refine ⟨?_, h.name, h.extractor⟩
  have hfilter := h.sublist.filter fun x => m.directory.same x.directory
  rwa [List.filter_eq_self.mpr] at hfilter
  intro x hx
  rcases List.mem_pair.mp hx with rfl | rfl
  · simp [Path.same]
  · exact hsame

/-- Where all extractors could be compared, no benchmark is repeated for an extractor that there is
another one to compare with. -/
theorem nodup_of_summarizeAll [Scalar α] [Elementary α] {config : Comparison.RatioConfig}
    {summaries : List (Comparison.Summary α)}
    (h : Comparison.summarizeAll config ms = .ok summaries) {e other : String}
    (he : e ∈ extractors ms) (hother : other ∈ extractors ms) (hne : e ≠ other) :
    ((ofExtractor e ms).map (·.name)).Nodup := by
  have hpair : (e, other) ∈ Comparison.orderedPairs (extractors ms) :=
    Comparison.mem_orderedPairs_iff.mpr ⟨he, hother, hne⟩
  obtain ⟨s, hs⟩ := exists_mapM_eq_ok_iff.mp ⟨summaries, h⟩ (e, other) hpair
  exact (Comparison.summarize_eq_ok_iff.mp hs).1

end Repeated

/-! ## What is looked up -/

variable {config : Config} {tree : FileTree} {ms : List (Measurement Double)}
  {m m' : Measurement Double}

/-- The results of the extractor of `m` and `m'` are looked up by benchmark, in one go, in a report
on `ms`. Comparisons need another extractor, and in a single directory another one there. The
improvement over time needs results of the reference, and looks up the reference and what is not
left out. -/
def LooksUp (config : Config) (ms : List (Measurement Double)) (m m' : Measurement Double) : Prop :=
  match config.mode with
  | .ratioSummary => ∃ other ∈ ms, other.extractor ≠ m.extractor
  | .perDirectory => m.directory.same m'.directory = true ∧
      ∃ other ∈ ms, m.directory.same other.directory = true ∧ other.extractor ≠ m.extractor
  | .timeBudget => m.extractor = config.reference ∨
      (∃ other ∈ ms, other.extractor = config.reference) ∧ m.extractor ∉ config.excluded
  | .runtimes => False
  | .benchsets => False

/-- Repeated results cannot be compared with those of another extractor. -/
theorem comparisonsText_ne_ok (h : Repeated ms m m')
    (hother : ∃ other ∈ ms, other.extractor ≠ m.extractor) (text : String) :
    comparisonsText config ms ≠ .ok text := by
  intro hok
  obtain ⟨summaries, hsummaries, -⟩ := map_eq_ok_iff.mp hok
  obtain ⟨other, hmem, hne⟩ := hother
  have hextractor : other.extractor ∈ extractors ms :=
    Measurement.mem_extractors_iff.mpr ⟨other, hmem, rfl⟩
  exact h.not_nodup (nodup_of_summarizeAll hsummaries h.mem_extractors hextractor hne.symm)

/-- Nor can they in a directory. -/
theorem directoryText_ne_ok {directory : Path} (h : Repeated ms m m')
    (hother : ∃ other ∈ ms, other.extractor ≠ m.extractor) (text : String) :
    directoryText config (directory, ms) ≠ .ok text := by
  intro hok
  unfold directoryText at hok
  split at hok
  · -- Two different extractors are not fewer than two.
    rename_i hfew
    obtain ⟨other, hmem, hne⟩ := hother
    have hpair : [m.extractor, other.extractor].Subperm (extractors ms) := by
      refine List.subperm_of_subset (by simpa using hne.symm) fun e he => ?_
      rcases List.mem_pair.mp he with rfl | rfl
      · exact h.mem_extractors
      · exact Measurement.mem_extractors_iff.mpr ⟨other, hmem, rfl⟩
    exact absurd hpair.length_le (not_le.mpr hfew)
  · obtain ⟨text', htext, -⟩ := map_eq_ok_iff.mp hok
    exact comparisonsText_ne_ok h hother text' htext

/-- One directory with repeated results is enough to refuse the report on all of them. -/
theorem directoriesText_ne_ok (h : Repeated ms m m') (hsame : m.directory.same m'.directory = true)
    (hother : ∃ other ∈ ms, m.directory.same other.directory = true ∧ other.extractor ≠ m.extractor)
    (text : String) : directoriesText config ms ≠ .ok text := by
  intro hok
  obtain ⟨texts, htexts, -⟩ := map_eq_ok_iff.mp hok
  obtain ⟨directory, hgroup⟩ := Measurement.exists_group h.mem
  obtain ⟨text', htext⟩ := exists_mapM_eq_ok_iff.mp ⟨texts, htexts⟩ _ hgroup
  obtain ⟨other, hmem, hdirectory, hne⟩ := hother
  exact directoryText_ne_ok (h.inDirectory hsame)
    ⟨other, Measurement.mem_inDirectory.mpr ⟨hmem, hdirectory⟩, hne⟩ text' htext

/-- Repeated results have no improvement over time if they are looked up for it. -/
theorem timeBudget_ne_ok (h : Repeated ms m m')
    (hlooked : m.extractor = config.reference ∨
      (∃ other ∈ ms, other.extractor = config.reference) ∧ m.extractor ∉ config.excluded)
    (d : Document) : timeBudget config ms ≠ .ok d := by
  intro hok
  obtain ⟨curves, hcurves, -⟩ := map_eq_ok_iff.mp hok
  -- The reference is looked up in any case, a candidate only if there are results to measure it
  -- against.
  rcases hlooked with href | ⟨⟨other, hmem, hother⟩, hincluded⟩
  · exact h.not_nodup (href ▸ FairShare.nodup_reference_of_curves hcurves)
  · have href : config.reference ∈ extractors ms :=
      Measurement.mem_extractors_iff.mpr ⟨other, hmem, hother⟩
    exact h.not_nodup (FairShare.nodup_of_curves hcurves href h.mem_extractors hincluded)

/-- No report is made where repeated results are looked up. -/
theorem body_ne_ok (h : Repeated ms m m') (hlooked : LooksUp config ms m m') (d : Document) :
    body config ms ≠ .ok d := by
  intro hok
  unfold LooksUp at hlooked
  unfold body at hok
  cases hmode : config.mode with
  | ratioSummary =>
    rw [hmode] at hlooked hok
    obtain ⟨text, htext, -⟩ := map_eq_ok_iff.mp hok
    exact comparisonsText_ne_ok h hlooked text htext
  | perDirectory =>
    rw [hmode] at hlooked hok
    obtain ⟨text, htext, -⟩ := map_eq_ok_iff.mp hok
    exact directoriesText_ne_ok h hlooked.1 hlooked.2 text htext
  | timeBudget =>
    rw [hmode] at hlooked hok
    exact timeBudget_ne_ok h hlooked d hok
  | runtimes =>
    rw [hmode] at hlooked
    exact hlooked
  | benchsets =>
    rw [hmode] at hlooked
    exact hlooked

/-- A report starts with the number of results that were loaded. -/
theorem result_report (config : Config) (tree : FileTree) (ms : List (Measurement Double)) :
    (report config tree ms).result =
      ((body config (config.select ms)).map fun d =>
        { d with text := loadedLine (config.select ms) ++ d.text }).bind (publish config tree) :=
          rfl

theorem exists_fault_of_body (h : ∀ d, body config (config.select ms) ≠ .ok d) :
    ∃ fault, (report config tree ms).result = .error fault := by
  rw [result_report]
  cases hbody : body config (config.select ms) with
  | error fault => exact ⟨fault, rfl⟩
  | ok d => exact absurd hbody (h d)

/-- A report is refused if two of the results that it is on are for the same benchmark and
extractor, and the extractor is looked up by benchmark. -/
theorem report_refuses_repeated (h : Repeated (config.select ms) m m')
    (hlooked : LooksUp config (config.select ms) m m') :
    ∃ fault, (report config tree ms).result = .error fault :=
  exists_fault_of_body (body_ne_ok h hlooked)

/-- A result of an extractor for one benchmark, read from a directory. -/
def eggRun (extractor : String) (directory : Path) : Measurement Double where
  name := "data/egg/a.json"
  extractor := extractor
  tree := .ofNat 1
  dag := .ofNat 1
  micros := .ofNat 1000000
  file := directory.join ⟨"a.json"⟩
  directory := directory

/-- The directory of both results is the same, although it is not written the same way. -/
theorem eggRun_repeated_refused :
    ∃ fault, (report { mode := .perDirectory } ⟨[], []⟩
      [eggRun "greedy" ⟨"out"⟩, eggRun "ilp" ⟨"out"⟩, eggRun "greedy" ⟨"out/"⟩]).result =
        .error fault := by
  have hsub : [eggRun "greedy" ⟨"out"⟩, eggRun "greedy" ⟨"out/"⟩].Sublist
      [eggRun "greedy" ⟨"out"⟩, eggRun "ilp" ⟨"out"⟩, eggRun "greedy" ⟨"out/"⟩] :=
    .cons_cons _ (.cons _ (.cons_cons _ .slnil))
  refine report_refuses_repeated ⟨hsub, rfl, rfl⟩
    ⟨by decide +kernel, eggRun "ilp" ⟨"out"⟩, ?_, by decide +kernel, ?_⟩
  · exact List.mem_cons_of_mem _ List.mem_cons_self
  · simp [eggRun]

/-! ## What is not looked up -/

theorem exists_report_of_body {d : Document} (hcharts : config.noCharts = true)
    (hbody : body config (config.select ms) = .ok d) :
    ∃ made, (report config tree ms).result = .ok made := by
  rw [result_report, hbody]
  show ∃ made, publish config tree { d with text := _ } = .ok made
  unfold publish
  cases d.figure with
  | none => exact ⟨_, rfl⟩
  | some figure =>
    simp only [hcharts, if_true]
    exact ⟨_, rfl⟩

theorem exists_runtimeLine (config : Config) {series : String × List Double} (hne : series.2 ≠ []) :
    ∃ line, runtimeLine config series = .ok line := by
  obtain ⟨spread, hspread⟩ := Statistics.exists_stdDev hne
  obtain ⟨five, hfive⟩ :
    ∃ five, Statistics.FiveNumber.of config.ratio.quantileMethod series.2 = .ok five :=
    Statistics.exists_fiveNumber hne
  unfold runtimeLine
  simp only [Statistics.mean_eq hne, hspread, hfive]
  exact ⟨_, rfl⟩

/-- Runtimes can always be reported. -/
theorem exists_runtimes (config : Config) (ms : List (Measurement Double)) :
    ∃ d, runtimes config ms = .ok d := by
  obtain ⟨lines, hlines⟩ :
    ∃ lines, (Benchset.runtimes ms (extractors ms)).mapM (runtimeLine config) = .ok lines := by
    refine exists_mapM_eq_ok_iff.mpr fun series hseries => exists_runtimeLine config ?_
    obtain ⟨e, he, rfl⟩ := List.mem_map.mp hseries
    obtain ⟨m, hm⟩ := Measurement.mem_extractors_iff.mp he
    rw [ne_eq, Statistics.sorted_eq_nil_iff, List.map_eq_nil_iff]
    exact List.ne_nil_of_mem (Measurement.mem_ofExtractor.mpr hm)
  exact ⟨_, map_eq_ok_iff.mpr ⟨lines, hlines, rfl⟩⟩

/-- Runtimes and suites look up no results by benchmark. Without charts no such report is ever
refused. -/
theorem never_refused (hmode : config.mode = .runtimes ∨ config.mode = .benchsets)
    (hcharts : config.noCharts = true) : ∃ made, (report config tree ms).result = .ok made := by
  have hbody : ∃ d, body config (config.select ms) = .ok d := by
    unfold body
    rcases hmode with hmode | hmode
    · rw [hmode]
      exact exists_runtimes config (config.select ms)
    · rw [hmode]
      exact ⟨_, rfl⟩
  obtain ⟨d, hd⟩ := hbody
  exact exists_report_of_body hcharts hd

/-- Not every report on repeated results is refused: of a single extractor none is, of whatever
kind, and an extractor that is left out of the improvement over time may be repeated there. -/
theorem repeated_accepted :
    let greedy := eggRun "greedy" ⟨"out"⟩
    let baseline := eggRun "bottom-up" ⟨"out"⟩
    (∀ mode, let config : Config := { mode := mode, noCharts := true }
      Repeated (config.select [greedy, greedy]) greedy greedy ∧
        ∃ made, (report config ⟨[], []⟩ [greedy, greedy]).result = .ok made) ∧
    let config : Config := { mode := .timeBudget, reference := "ilp", noCharts := true }
    let ms := [baseline, baseline, eggRun "ilp" ⟨"out"⟩]
    Repeated (config.select ms) baseline baseline ∧
      ∃ made, (report config ⟨[], []⟩ ms).result = .ok made := by
  intro greedy baseline
  refine ⟨fun mode => ⟨⟨List.Sublist.refl _, rfl, rfl⟩, ?_⟩,
    ⟨.cons_cons _ (.cons_cons _ (List.nil_sublist _)), rfl, rfl⟩,
      exists_eq_ok_iff.mpr (by decide +kernel)⟩
  cases mode with
  | ratioSummary => exact exists_eq_ok_iff.mpr (by decide +kernel)
  | perDirectory => exact exists_eq_ok_iff.mpr (by decide +kernel)
  | timeBudget => exact exists_eq_ok_iff.mpr (by decide +kernel)
  | runtimes => exact never_refused (.inl rfl) rfl
  | benchsets => exact never_refused (.inr rfl) rfl

end ExtractionBench.Report
