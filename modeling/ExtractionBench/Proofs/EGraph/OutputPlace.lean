import Mathlib.Tactic
import ExtractionBench.Proofs.EGraph.OutputName
import ExtractionBench.Proofs.Files.Directory

/-!
# The place of the JSON

The whole path that is converted is renamed, its directories like the name of the file. So the JSON
is written beside the file exactly if there is nothing in the directories to rename; then no
directory is needed that was not there when the file was read. To see that nothing else can make up
for a renamed directory, the characters of the components are counted: renaming only loses some.
-/

namespace ExtractionBench

namespace EGraph

open Text (replaceAll collapse)

variable {p : Path} {segment : List Char} {parts : List (List Char)}

/-! ## Renamed segments -/

/-- What becomes of a directory in the path. -/
def renamed (segment : List Char) : List Char := collapse json (replaceAll csv [] segment)

/-- The name that JSON is written under. -/
def writtenName (p : Path) : List Char := collapse json (replaceAll csv [] p.lastSegment ++ json)

/-- There is nothing to rename in a segment. -/
def Clean (segment : List Char) : Prop := ¬ csv <:+: segment ∧ ¬ json ++ json <:+: segment

theorem renamed_of_clean (h : Clean segment) : renamed segment = segment := by
  rw [renamed, Text.replaceAll_eq_self csv_ne_nil h.1, collapse,
    Text.replaceAll_eq_self json_json_ne_nil h.2]

theorem map_renamed_of_clean (h : ∀ segment ∈ parts, Clean segment) :
    parts.map renamed = parts := by
  rw [List.map_congr_left fun segment hmem => renamed_of_clean (h segment hmem), List.map_id']

/-- A segment that is renamed gets shorter. -/
theorem length_renamed_lt (h : ¬ Clean segment) : (renamed segment).length < segment.length := by
  by_cases hcsv : csv <:+: segment
  · have hdropped := Text.length_replaceAll_add_le [] csv_ne_nil (by simp) hcsv
    have hcollapsed :=
      Text.length_replaceAll_le json json_json_ne_nil (by simp) (replaceAll csv [] segment)
    rw [length_csv, List.length_nil] at hdropped
    rw [renamed, collapse]
    omega
  · have hjson : json ++ json <:+: segment := by
      by_contra hjson
      exact h ⟨hcsv, hjson⟩
    have hcollapsed := Text.length_replaceAll_add_le json json_json_ne_nil (by simp) hjson
    rw [List.length_append, length_json] at hcollapsed
    rw [renamed, collapse, Text.replaceAll_eq_self csv_ne_nil hcsv]
    omega

/-- Only segments that stand for a component are renamed. -/
theorem not_idle_of_not_clean (h : ¬ Clean segment) : Path.isIdle segment = false := by
  by_contra hidle
  rw [Bool.not_eq_false, Path.isIdle_iff] at hidle
  rcases hidle with rfl | rfl
  · exact h (by simp [Clean, csv_eq, json_eq])
  · exact h (by simp [Clean, csv_eq, json_eq, List.infix_cons_iff])

theorem segmentSize_renamed_lt (h : ¬ Clean segment) :
    Path.segmentSize (renamed segment) < Path.segmentSize segment := by
  rw [Path.segmentSize_of_not_idle (not_idle_of_not_clean h)]
  exact (Path.segmentSize_le _).trans_lt (length_renamed_lt h)

theorem segmentSize_renamed_le (segment : List Char) :
    Path.segmentSize (renamed segment) ≤ Path.segmentSize segment := by
  by_cases h : Clean segment
  · rw [renamed_of_clean h]
  · exact (segmentSize_renamed_lt h).le

/-- Renamed directories lead elsewhere, if anything in them is renamed: nothing makes up for the
lost characters. -/
theorem leading_renamed_iff :
    Path.leading (parts.map renamed) = Path.leading parts ↔ ∀ segment ∈ parts, Clean segment := by
  constructor
  · intro heq
    by_contra hunclean
    push Not at hunclean
    obtain ⟨segment, hmem, hunclean⟩ := hunclean
    have hsum :
        (parts.map fun s => Path.segmentSize (renamed s)).sum < (parts.map Path.segmentSize).sum :=
      List.sum_lt_sum (fun s => Path.segmentSize (renamed s)) Path.segmentSize
        (fun s _ => segmentSize_renamed_le s)
        ⟨segment, hmem, segmentSize_renamed_lt hunclean⟩
    have hsame := congrArg (fun cs => (cs.map Component.size).sum) heq
    simp only [Path.sum_size_leading, List.map_map, Function.comp_def] at hsame
    exact hsum.ne hsame
  · intro hclean
    rw [map_renamed_of_clean hclean]

/-! ## The segments of the name -/

theorem slash_not_mem_json : '/' ∉ json := by simp [json_eq]

/-- The directories of an output are those of its input, renamed, and its last segment has the
ending. -/
theorem segments_outputPath (p : Path) :
    (outputPath p).segments = p.directories.map renamed ++ [writtenName p] := by
  have hstem : (stem p).splitOn '/' =
      p.directories.map (replaceAll csv []) ++ [replaceAll csv [] p.lastSegment] := by
    rw [stem, Text.splitOn_replaceAll csv_ne_nil (by simp [csv_eq]) List.not_mem_nil]
    show p.segments.map _ = _
    rw [Path.segments_eq, List.map_append, List.map_singleton]
  rw [Path.segments, toList_outputPath, collapse,
    Text.splitOn_replaceAll json_json_ne_nil (by simp [json_eq]) slash_not_mem_json,
    Text.splitOn_append slash_not_mem_json hstem, List.map_append, List.map_map]
  rfl

theorem directories_outputPath (p : Path) :
    (outputPath p).directories = p.directories.map renamed :=
  (Path.directories_of_segments (segments_outputPath p)).1

theorem lastSegment_outputPath (p : Path) : (outputPath p).lastSegment = writtenName p :=
  (Path.directories_of_segments (segments_outputPath p)).2

theorem le_length_writtenName (p : Path) : 5 ≤ (writtenName p).length :=
  length_json ▸ (json_suffix_collapse (replaceAll csv [] p.lastSegment)).length_le

/-- The name of an output always stands for a component. -/
theorem not_idle_writtenName (p : Path) : Path.isIdle (writtenName p) = false := by
  have hlength := le_length_writtenName p
  by_contra hidle
  rw [Bool.not_eq_false, Path.isIdle_iff] at hidle
  rcases hidle with h | h
  · simp [h] at hlength
  · simp [h] at hlength

/-- The JSON has a proper name: it is no step to the same directory or out of it. -/
theorem step_writtenName (place : Place) (p : Path) :
    FileTree.step place (writtenName p) = place ++ [String.ofList (writtenName p)] := by
  have hlength := le_length_writtenName p
  rw [FileTree.step, if_neg (by simp [not_idle_writtenName]), if_neg]
  intro hup
  rw [eq_of_beq hup] at hlength
  simp at hlength

/-! ## Beside the file -/

/-- A path that ends in a name leads to the same directory, exactly if there is nothing to rename on
the way. -/
theorem parent_outputPath_iff (h : Path.isIdle p.lastSegment = false) :
    (outputPath p).parent?.map Path.components = p.parent?.map Path.components ↔
      ∀ segment ∈ p.directories, Clean segment := by
  have houtput : Path.isIdle (outputPath p).lastSegment = false := by
    rw [lastSegment_outputPath]
    exact not_idle_writtenName p
  rw [Path.components_parent_of_lastSegment h, Path.components_parent_of_lastSegment houtput,
    directories_outputPath, Option.some_inj, leading_renamed_iff]

/-- An output has no NUL in its path if its input has none. -/
theorem nul_not_mem_outputPath (h : '\x00' ∉ p.text.toList) :
    '\x00' ∉ (outputPath p).text.toList := by
  have hjson : '\x00' ∉ json := by simp [json_eq]
  have hstem : '\x00' ∉ stem p := Text.not_mem_replaceAll csv_ne_nil List.not_mem_nil h
  rw [toList_outputPath]
  exact Text.not_mem_replaceAll json_json_ne_nil hjson (by simp [hstem, hjson])

theorem outputPath_ne_empty (p : Path) : (outputPath p).text ≠ "" := by
  intro h
  have hlength := (json_suffix_outputPath p).length_le
  simp [h] at hlength

/-- The outcomes for a file with some contents, if its JSON belongs in a directory under a name. -/
inductive Outcome (t : FileTree) (input : Path) (contents : String) (place : Place)
    (name : String) : Prop
  | written (g : EGraph) (hg : ofLegacy contents input = .ok g)
      (h : convertFile t input =
        .ok (outputPath input, t.put (place ++ [name]) (.file (.ofText g.jsonText))))
  | refused (fault : Fault Double) (hfault : ofLegacy contents input = .error fault)
      (h : convertFile t input = .error fault)
  | inTheWay (h : convertFile t input = .error (.file (outputPath input) .isDirectory))
  | tooLong (h : convertFile t input = .error (.file (outputPath input) .nameTooLong))

section Clean

variable {t : FileTree} {place : Place} (hclean : ∀ segment ∈ p.directories, Clean segment)
  (hnul : '\x00' ∉ p.text.toList) (hreach : t.reach p.directories = .ok place)
    (hplace : t.at? place = some .directory)

include hclean hnul hreach hplace

/-- Where the directories of an output are, it has its place, unless its name is too long. -/
theorem resolve_outputPath :
    t.resolve (outputPath p) = .ok (place ++ [String.ofList (writtenName p)]) ∨
      t.resolve (outputPath p) = .error .nameTooLong := by
  have hsame : t.reach (outputPath p).directories = .ok place := by
    rw [directories_outputPath, map_renamed_of_clean hclean, hreach]
  have h :=
    FileTree.resolve_of_reach (outputPath_ne_empty p) (nul_not_mem_outputPath hnul) hsame hplace
  rwa [lastSegment_outputPath, step_writtenName] at h

/-- The JSON is put into the directory, or it is refused there. -/
theorem write_outputPath (content : Content) :
    t.write (outputPath p) content =
      .ok (t.put (place ++ [String.ofList (writtenName p)]) (.file content)) ∨
      t.write (outputPath p) content = .error .isDirectory ∨
      t.write (outputPath p) content = .error .nameTooLong := by
  rcases resolve_outputPath hclean hnul hreach hplace with h | h
  · by_cases hdirectory : t.at? (place ++ [String.ofList (writtenName p)]) = some .directory
    · right; left
      rw [FileTree.write, FileTree.target, h]
      dsimp only
      rw [if_pos hdirectory]
      rfl
    · left
      rw [FileTree.write, FileTree.target, h]
      dsimp only
      rw [if_neg hdirectory]
      rfl
  · right; right
    rw [FileTree.write, FileTree.target, h]
    rfl

/-- What comes of an input whose text is read, whether it is an e-graph or not. -/
theorem outcome_of_readText {contents : String} (hread : t.readText p = .ok contents) :
    Outcome t p contents place (String.ofList (writtenName p)) := by
  cases hg : ofLegacy contents p with
  | error fault =>
    refine .refused fault hg ?_
    simp only [convertFile, hread, hg, bind, Except.bind, Except.mapError]
  | ok g =>
    rcases write_outputPath hclean hnul hreach hplace (.ofText g.jsonText) with h | h | h
    · refine .written g hg ?_
      simp only [convertFile, hread, hg, h, bind, Except.bind, Except.mapError, pure, Except.pure]
    · refine .inTheWay ?_
      simp only [convertFile, hread, hg, h, bind, Except.bind, Except.mapError]
    · refine .tooLong ?_
      simp only [convertFile, hread, hg, h, bind, Except.bind, Except.mapError]

end Clean

/-- A path that ends in a name and that of its JSON have the same parent, exactly if there is
nothing to rename in its directories. Every file that is read has such a path; if there is nothing
to rename, its JSON is put beside it, or the conversion is refused for no other reason than the
contents or the name. -/
theorem written_beside (input : Path) :
    (Path.isIdle input.lastSegment = false →
        ((outputPath input).parent?.map Path.components = input.parent?.map Path.components ↔
          ∀ segment ∈ input.directories, Clean segment)) ∧
      ∀ t contents, t.readText input = .ok contents →
        Path.isIdle input.lastSegment = false ∧
          ((∀ segment ∈ input.directories, Clean segment) →
            ∃ place, t.at? place = some .directory ∧
              t.resolve input = .ok (FileTree.step place input.lastSegment) ∧
              Outcome t input contents place (String.ofList (writtenName input))) := by
  refine ⟨parent_outputPath_iff, fun t contents hread => ?_⟩
  obtain ⟨place, hreach, hplace, hresolve, hlast⟩ := FileTree.exists_of_readText hread
  refine ⟨hlast, fun hclean => ⟨place, hplace, hresolve, ?_⟩⟩
  exact outcome_of_readText hclean (FileTree.nul_not_mem_of_resolve hresolve) hreach hplace hread

/-- A directory whose name has a `.csv` in it, and in it a file in the older format. -/
def csvDirectory (others : List (Place × Entry)) : FileTree :=
  ⟨[], (["a.csv"], .directory) :: (["a.csv", "x.csv"], .file (.ofText "0, 1, x\n")) :: others⟩

/-- The JSON of a file goes into another directory, which has to be there. -/
theorem written_elsewhere :
    outputPath ⟨"a.csv/x.csv"⟩ = ⟨"a/x.json"⟩ ∧
      (outputPath ⟨"a.csv/x.csv"⟩).parent?.map Path.components ≠
      (Path.parent? ⟨"a.csv/x.csv"⟩).map Path.components ∧
      (convertFile (csvDirectory []) ⟨"a.csv/x.csv"⟩).toOption = none ∧
      (convertFile (csvDirectory [(["a"], .directory)]) ⟨"a.csv/x.csv"⟩).toOption.map
      (·.2.entries.map (·.1)) =
        some [["a.csv"], ["a.csv", "x.csv"], ["a"], ["a", "x.json"]] := by
  refine ⟨?_, ?_, ?_, ?_⟩ <;> decide +kernel

end EGraph

end ExtractionBench
