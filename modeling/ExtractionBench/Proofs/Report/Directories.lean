import Mathlib.Tactic
import ExtractionBench.Proofs.Report.Repetition

/-!
# Reports by directory

A report by directory is made up of the reports on each directory alone: they are put together in
ascending order of the directories, each under its heading and without its first line, and the first
of them that is refused refuses the whole. What is compared in one directory knows nothing of any
other.
-/

namespace ExtractionBench.Report

open Measurement (byDirectory extractors inDirectory)

variable {config : Config} {tree : FileTree} {ms : List (Measurement Double)} {text : String}
  {fault : Fault Double}
  {group : Path × List (Measurement Double)}

/-- All comparisons of some results, as a report on its own. -/
def comparisonsReport (config : Config) (tree : FileTree) (ms : List (Measurement Double)) :
    Except (Fault Double) (String × FileTree) :=
  (report { config with mode := .ratioSummary } tree ms).result

/-- The comparisons by directory, as a report on its own. -/
def directoriesReport (config : Config) (tree : FileTree) (ms : List (Measurement Double)) :
    Except (Fault Double) (String × FileTree) :=
  (report { config with mode := .perDirectory } tree ms).result

/-- Neither kind of report has a chart, so neither changes a file. -/
theorem publish_plain (made : Except (Fault Double) String) (line : String) :
    ((made.map Document.plain).map fun d => { d with text := line ++ d.text }).bind
    (publish config tree) =
      made.map fun text => (line ++ text, tree) := by
  cases made with
  | error fault => rfl
  | ok text => rfl

theorem comparisonsReport_eq (config : Config) (tree : FileTree) (ms : List (Measurement Double)) :
    comparisonsReport config tree ms =
      (comparisonsText config (config.select ms)).map fun text =>
      (loadedLine (config.select ms) ++ text, tree) :=
  publish_plain _ _

theorem directoriesReport_eq (config : Config) (tree : FileTree) (ms : List (Measurement Double)) :
    directoriesReport config tree ms =
      (directoriesText config (config.select ms)).map fun text =>
      (loadedLine (config.select ms) ++ text, tree) :=
  publish_plain _ _

/-- The results of a directory have been selected with all others. -/
theorem select_inDirectory (config : Config) (d : Path) (ms : List (Measurement Double)) :
    config.select (inDirectory d (config.select ms)) = inDirectory d (config.select ms) := by
  unfold Config.select
  split_ifs
  · rfl
  · refine List.filter_eq_self.mpr fun m hm => ?_
    obtain ⟨hselected, -⟩ := Measurement.mem_inDirectory.mp hm
    exact (List.mem_filter.mp hselected).2

/-- The results of a directory have been selected already. -/
theorem select_group (hgroup : group ∈ byDirectory (config.select ms)) :
    config.select group.2 = group.2 := by
  obtain ⟨d, results⟩ := group
  obtain ⟨rfl, -⟩ := Measurement.mem_byDirectory_iff.mp hgroup
  exact select_inDirectory config d ms

/-! ## One directory -/

/-- What stands in a report for a directory: its heading, and either that there is nothing to
compare or what the report on the directory alone has below its first line. -/
inductive DirectorySection (config : Config) (tree : FileTree)
    (group : Path × List (Measurement Double)) : String → Prop
  | single (hfew : (extractors group.2).length < 2) :
      DirectorySection config tree group (directoryHeading group.1 ++ nothingToCompare)
  | compared {text : String} (hmany : 2 ≤ (extractors group.2).length)
      (halone : comparisonsReport config tree group.2 = .ok (loadedLine group.2 ++ text, tree)) :
      DirectorySection config tree group (directoryHeading group.1 ++ text)

/-- A directory has one section. -/
theorem directorySection_unique {text' : String} (h : DirectorySection config tree group text)
    (h' : DirectorySection config tree group text') : text = text' := by
  cases h with
  | single hfew =>
    cases h' with
    | single _ => rfl
    | compared hmany _ => exact absurd hfew (not_lt.mpr hmany)
  | compared hmany halone =>
    cases h' with
    | single hfew => exact absurd hfew (not_lt.mpr hmany)
    | compared _ halone' =>
      obtain ⟨hlines, -⟩ := Prod.mk.inj (Except.ok.inj (halone.symm.trans halone'))
      rw [(String.append_right_inj _).mp hlines]

section Group

variable (hselect : config.select group.2 = group.2)

include hselect

theorem comparisonsReport_group :
    comparisonsReport config tree group.2 =
      (comparisonsText config group.2).map fun text => (loadedLine group.2 ++ text, tree) := by
  rw [comparisonsReport_eq, hselect]

/-- The text on a directory is its section. -/
theorem directoryText_eq_ok_iff :
    directoryText config group = .ok text ↔ DirectorySection config tree group text := by
  unfold directoryText
  by_cases hfew : (extractors group.2).length < 2
  · rw [if_pos hfew]
    constructor
    · intro h
      cases h
      exact .single hfew
    · intro h
      rw [directorySection_unique h (.single hfew)]
  · rw [if_neg hfew, map_eq_ok_iff]
    constructor
    · rintro ⟨below, hbelow, rfl⟩
      refine .compared (not_lt.mp hfew) ?_
      rw [comparisonsReport_group hselect, hbelow]
      rfl
    · intro h
      cases h with
      | single hfew' => exact absurd hfew' hfew
      | @compared below _ halone =>
        rw [comparisonsReport_group hselect] at halone
        obtain ⟨below', hbelow, heq⟩ := map_eq_ok_iff.mp halone
        obtain ⟨hlines, -⟩ := Prod.mk.inj heq
        exact ⟨below', hbelow,
          congrArg (directoryHeading group.1 ++ ·) ((String.append_right_inj _).mp hlines)⟩

/-- A directory is refused as a report on its results alone is, if it has any two extractors. -/
theorem directoryText_eq_error_iff :
    directoryText config group = .error fault ↔
      2 ≤ (extractors group.2).length ∧ comparisonsReport config tree group.2 = .error fault := by
  rw [comparisonsReport_group hselect, map_eq_error_iff]
  unfold directoryText
  by_cases hfew : (extractors group.2).length < 2
  · rw [if_pos hfew]
    simp [hfew]
  · rw [if_neg hfew, map_eq_error_iff]
    exact (and_iff_right (not_lt.mp hfew)).symm

/-- A directory has a text exactly if it has too few extractors or they can be compared. -/
theorem exists_directoryText_iff :
    (∃ text, directoryText config group = .ok text) ↔
      (2 ≤ (extractors group.2).length →
        ∃ made, comparisonsReport config tree group.2 = .ok made) := by
  rw [comparisonsReport_group hselect]
  unfold directoryText
  by_cases hfew : (extractors group.2).length < 2
  · rw [if_pos hfew]
    simp [hfew]
  · rw [if_neg hfew]
    simp only [map_eq_ok_iff, not_lt.mp hfew, forall_const]
    constructor
    · rintro ⟨_, below, hbelow, -⟩
      exact ⟨_, below, hbelow, rfl⟩
    · rintro ⟨_, below, hbelow, -⟩
      exact ⟨_, below, hbelow, rfl⟩

end Group

/-! ## All directories -/

theorem exists_directoriesReport_iff :
    (∃ made, directoriesReport config tree ms = .ok made) ↔
      ∀ group ∈ byDirectory (config.select ms), 2 ≤ (extractors group.2).length →
        ∃ made, comparisonsReport config tree group.2 = .ok made := by
  have htexts : (∃ made, directoriesReport config tree ms = .ok made) ↔
      ∃ texts, (byDirectory (config.select ms)).mapM (directoryText config) = .ok texts := by
    rw [directoriesReport_eq]
    unfold directoriesText
    simp only [map_eq_ok_iff]
    constructor
    · rintro ⟨_, _, ⟨texts, htexts, -⟩, -⟩
      exact ⟨texts, htexts⟩
    · rintro ⟨texts, htexts⟩
      exact ⟨_, _, ⟨texts, htexts, rfl⟩, rfl⟩
  rw [htexts, exists_mapM_eq_ok_iff]
  exact forall₂_congr fun group hgroup => exists_directoryText_iff (select_group hgroup)

/-- A report on directories is made up of their sections. -/
theorem sections_of_directoriesReport {after : FileTree}
    (h : directoriesReport config tree ms = .ok (text, after)) :
    after = tree ∧ ∃ sections, text = loadedLine (config.select ms) ++ String.join sections ∧
      List.Forall₂ (DirectorySection config tree) (byDirectory (config.select ms)) sections := by
  rw [directoriesReport_eq] at h
  obtain ⟨_, hbelow, heq⟩ := map_eq_ok_iff.mp h
  obtain ⟨sections, hsections, rfl⟩ := map_eq_ok_iff.mp hbelow
  obtain ⟨rfl, rfl⟩ := Prod.mk.inj heq
  refine ⟨rfl, sections, rfl, ?_⟩
  have hall := mapM_eq_ok_iff.mp hsections
  refine List.forall₂_iff_zip.mpr ⟨hall.length_eq, fun {group text} hmem => ?_⟩
  have hgroup : group ∈ byDirectory (config.select ms) := (List.of_mem_zip hmem).1
  exact (directoryText_eq_ok_iff (select_group hgroup)).mp ((List.forall₂_iff_zip.mp hall).2 hmem)

/-- The directories come in strictly ascending order. -/
theorem pairwise_groups (ms : List (Measurement Double)) :
    (byDirectory ms).Pairwise fun g g' => g.1.before g'.1 = true :=
  List.pairwise_map.mp (Measurement.pairwise_byDirectory ms)

/-- A report on directories fails with the fault of the first directory that has one. -/
theorem directoriesReport_eq_error_iff :
    directoriesReport config tree ms = .error fault ↔
      ∃ group ∈ byDirectory (config.select ms),
        (∀ group' ∈ byDirectory (config.select ms), group'.1.before group.1 = true →
          2 ≤ (extractors group'.2).length →
          ∃ made, comparisonsReport config tree group'.2 = .ok made) ∧
        2 ≤ (extractors group.2).length ∧ comparisonsReport config tree group.2 = .error fault := by
  have hasymm : ∀ g g' : Path × List (Measurement Double), g.1.before g'.1 = true →
      ¬ g'.1.before g.1 = true := by
    intro g g' h h'
    have hself := Path.before_trans h h'
    rw [Path.not_before_of_components_eq rfl] at hself
    cases hself
  rw [directoriesReport_eq, map_eq_error_iff]
  unfold directoriesText
  rw [map_eq_error_iff, mapM_eq_error_iff_of_pairwise hasymm (pairwise_groups _)]
  refine exists_congr fun group => and_congr_right fun hgroup => and_congr ?_ ?_
  · refine forall₂_congr fun group' hgroup' => imp_congr_right fun _ => ?_
    exact exists_directoryText_iff (select_group hgroup')
  · exact directoryText_eq_error_iff (select_group hgroup)

/-- A group depends on nothing but the results in its directory. -/
theorem mem_groups_congr {ms' : List (Measurement Double)} {d : Path}
    (h : inDirectory d ms' = inDirectory d ms) (hsame : d.same group.1 = true) :
    group ∈ byDirectory ms' ↔ group ∈ byDirectory ms := by
  obtain ⟨d', results⟩ := group
  have hspelling : ∀ xs : List (Measurement Double), inDirectory d' xs = inDirectory d xs := by
    intro xs
    refine List.filter_congr fun m _ => ?_
    rw [Path.same, Path.same, eq_of_beq hsame]
  rw [Measurement.mem_byDirectory_iff, Measurement.mem_byDirectory_iff, hspelling, hspelling, h]

/-- What is refused as repeated is repeated within one directory. -/
theorem repeated_in_directory {benchmark extractor : String} {file file' : Path}
    (h : directoriesReport config tree ms = .error (.repeated benchmark extractor file file')) :
    ∃ m m', Repeated (config.select ms) m m' ∧ m.directory.same m'.directory = true ∧
      m.name = benchmark ∧ m.extractor = extractor ∧ m.file = file ∧ m'.file = file' := by
  obtain ⟨⟨d, results⟩, hgroup, -, -, halone⟩ := directoriesReport_eq_error_iff.mp h
  obtain ⟨rfl, -⟩ := Measurement.mem_byDirectory_iff.mp hgroup
  rw [comparisonsReport_group (select_group hgroup), map_eq_error_iff] at halone
  obtain ⟨_, -, hpair⟩ := exists_error_of_mapM (map_eq_error_iff.mp halone)
  cases Comparison.repeated_of_summarize hpair with
  | @repeated m m' hsub hname hextractor =>
    have hdirectory : ∀ x ∈ [m, m'], d.same x.directory = true := fun x hx =>
      (Measurement.mem_inDirectory.mp (hsub.subset hx)).2
    have hm := hdirectory m List.mem_cons_self
    have hm' := hdirectory m' (List.mem_cons_of_mem m List.mem_cons_self)
    refine ⟨m, m', ⟨hsub.trans List.filter_sublist, hname, hextractor⟩, ?_, rfl, rfl, rfl, rfl⟩
    rw [Path.same, ← eq_of_beq hm, ← eq_of_beq hm', beq_self_eq_true]

/-- A report by directory is the reports on the directories, one by one. There is one exactly if
there is one on every directory with two extractors or more. It then has a section for each
directory, in ascending order, and otherwise it is refused as the least directory is that is
refused. The directories are made up of the results in them alone, so no other results count for a
section, and results are only repeated within a directory. -/
theorem directoriesReport_composed (config : Config) (tree : FileTree)
    (ms : List (Measurement Double)) :
    let kept := config.select ms
    let groups := byDirectory kept
    ((∃ made, directoriesReport config tree ms = .ok made) ↔
      ∀ g ∈ groups, 2 ≤ (extractors g.2).length →
        ∃ made, comparisonsReport config tree g.2 = .ok made) ∧
    (∀ text after, directoriesReport config tree ms = .ok (text, after) →
      after = tree ∧ ∃ sections, text = loadedLine kept ++ String.join sections ∧
        List.Forall₂ (DirectorySection config tree) groups sections) ∧
    (groups.Pairwise fun g g' => g.1.before g'.1 = true) ∧
    (∀ fault, directoriesReport config tree ms = .error fault ↔
      ∃ g ∈ groups,
        (∀ g' ∈ groups, g'.1.before g.1 = true → 2 ≤ (extractors g'.2).length →
          ∃ made, comparisonsReport config tree g'.2 = .ok made) ∧
        2 ≤ (extractors g.2).length ∧ comparisonsReport config tree g.2 = .error fault) ∧
    (∀ d group, (d, group) ∈ groups ↔
      group = inDirectory d kept ∧ group.head?.map (·.directory) = some d) ∧
    (∀ ms' d g, inDirectory d (config.select ms') = inDirectory d kept → d.same g.1 = true →
      (g ∈ byDirectory (config.select ms') ↔ g ∈ groups) ∧
        ∀ text text', DirectorySection config tree g text → DirectorySection config tree g text' →
          text = text') ∧
    ∀ benchmark extractor file file',
      directoriesReport config tree ms = .error (.repeated benchmark extractor file file') →
        ∃ m m', Repeated kept m m' ∧ m.directory.same m'.directory = true ∧
          m.name = benchmark ∧ m.extractor = extractor ∧ m.file = file ∧ m'.file = file' := by
  intro kept groups
  refine ⟨exists_directoriesReport_iff, ?_, pairwise_groups kept, ?_, ?_, ?_, ?_⟩
  · intro text after h
    exact sections_of_directoriesReport h
  · intro fault
    exact directoriesReport_eq_error_iff
  · intro d group
    exact Measurement.mem_byDirectory_iff
  · intro ms' d g h hsame
    exact ⟨mem_groups_congr h hsame, fun _ _ => directorySection_unique⟩
  · intro benchmark extractor file file'
    exact repeated_in_directory

end ExtractionBench.Report
