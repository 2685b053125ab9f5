import Mathlib.Tactic
import ExtractionBench.Files.Tree
import ExtractionBench.Proofs.Text.Pieces
import ExtractionBench.Proofs.Traversal

/-!
# The directory of a path

A path leads through directories to what its last segment names. Its parent is made up of all its
components but the last, however it is written, and following the path means to follow the segments
in front of the last slash to a directory, and to take one step from there.
-/

namespace ExtractionBench

/-- The number of characters that a component is written with; none for those that a path starts
with. -/
def Component.size : Component → Nat
  | .root => 0
  | .here => 0
  | .up => 2
  | .named name => name.toList.length

namespace Path

variable {p : Path} {segment first last : List Char} {parts rest front : List (List Char)}

theorem isIdle_iff : isIdle segment = true ↔ segment = [] ∨ segment = ['.'] := by
  simp [isIdle]

theorem component?_of_isIdle (h : isIdle segment = true) : component? segment = none := if_pos h

/-- A segment that is not idle stands for a component other than the root. -/
theorem exists_component (h : isIdle segment = false) :
    ∃ c, component? segment = some c ∧ c ≠ .root := by
  rw [component?, if_neg (by simp [h])]
  split
  · exact ⟨.up, rfl, by simp⟩
  · exact ⟨.named (String.ofList segment), rfl, by simp⟩

/-! ## The start and the rest -/

theorem split_root (h : p.segments = [] :: first :: rest) : p.split = (.root, first :: rest) := by
  rw [split, h]

theorem split_here (h : p.segments = ['.'] :: rest) : p.split = (.here, rest) := by
  rw [split, h]
  rfl

theorem split_plain (h : p.segments = first :: rest) (hidle : isIdle first = false) :
    p.split = (.plain, first :: rest) := by
  rw [split, h]
  split
  · simp_all [isIdle]
  · simp_all [isIdle]
  · rfl

/-- A path starts at the root, at a dot or with a segment that is not idle, or is empty. -/
theorem segments_cases (p : Path) :
    (∃ first rest, p.segments = [] :: first :: rest) ∨ (∃ rest, p.segments = ['.'] :: rest) ∨
      p.segments = [[]] ∨
      ∃ first rest, p.segments = first :: rest ∧ isIdle first = false := by
  obtain ⟨first, rest, h⟩ := List.exists_cons_of_ne_nil (List.splitOn_ne_nil '/' p.text.toList)
  rw [segments, h]
  by_cases hidle : isIdle first = true
  · rcases isIdle_iff.mp hidle with rfl | rfl
    · cases rest with
      | nil => simp
      | cons next rest => simp
    · simp
  · exact .inr (.inr (.inr ⟨first, rest, rfl, by simpa using hidle⟩))

theorem mem_segments_of_mem_split (h : segment ∈ p.split.2) : segment ∈ p.segments := by
  unfold split at h
  split at h
  · rename_i hp
    exact hp ▸ List.mem_cons_of_mem [] h
  · rename_i hp
    exact hp ▸ List.mem_cons_of_mem ['.'] h
  · exact h

/-! ## Idle segments -/

theorem dropIdle_concat (parts : List (List Char)) (segment : List Char) :
    dropIdle (parts ++ [segment]) = if isIdle segment = true then dropIdle parts
      else parts ++ [segment] := by
  rw [dropIdle, List.reverse_concat, List.dropWhile_cons]
  split
  · rfl
  · rw [List.reverse_cons, List.reverse_reverse]

/-- What is left after idle segments are dropped ends in one that is not idle. -/
theorem isIdle_of_dropIdle (h : dropIdle parts = front ++ [last]) : isIdle last = false := by
  induction parts using List.reverseRecOn with
  | nil => simp [dropIdle] at h
  | append_singleton parts segment ih =>
    rw [dropIdle_concat] at h
    split at h
    · exact ih h
    · rename_i hidle
      obtain ⟨-, hlast⟩ := List.append_inj' h rfl
      simpa [List.singleton_inj.mp hlast] using hidle

/-- Idle segments at the end stand for no components. -/
theorem filterMap_dropIdle (parts : List (List Char)) :
    (dropIdle parts).filterMap component? = parts.filterMap component? := by
  induction parts using List.reverseRecOn with
  | nil => rfl
  | append_singleton parts segment ih =>
    rw [dropIdle_concat]
    split
    · rename_i hidle
      rw [ih, List.filterMap_append, List.filterMap_cons_none (component?_of_isIdle hidle),
        List.filterMap_nil, List.append_nil]
    · rfl

theorem dropIdle_prefix_self (parts : List (List Char)) : dropIdle parts <+: parts := by
  have hsuffix := List.dropWhile_suffix isIdle (l := parts.reverse)
  simpa [dropIdle] using List.reverse_prefix.mpr hsuffix

/-! ## The parent -/

/-- Some segments can stand behind a start. Behind nothing the first of them is not idle. -/
def Follows (start : Start) (parts : List (List Char)) : Prop :=
  start = .plain → ∀ first ∈ parts.head?, isIdle first = false

/-- A path that is put together again has the components of its start and of its segments. -/
theorem components_unsplit {start : Start} (hstart : Follows start parts)
    (hslash : ∀ part ∈ parts, '/' ∉ part) :
    (unsplit start parts).components = start.components ++ parts.filterMap component? := by
  cases parts with
  | nil => cases start <;> rfl
  | cons first rest =>
    have hbody : (['/'].intercalate (first :: rest)).splitOn '/' = first :: rest :=
      List.splitOn_intercalate '/' hslash (by simp)
    have htext : ∀ start, (unsplit start (first :: rest)).segments =
        (start.text ++ (if start = .here then ['/'] else []) ++
          ['/'].intercalate (first :: rest)).splitOn '/' := by
      intro start
      rw [segments, unsplit, String.toList_ofList]
      simp
    cases start with
    | plain =>
      have hsegments : (unsplit .plain (first :: rest)).segments = first :: rest :=
        (htext .plain).trans hbody
      rw [components, split_plain hsegments (hstart rfl first rfl)]
    | root =>
      have hsegments : (unsplit .root (first :: rest)).segments = [] :: first :: rest := by
        have hcons := Text.splitOn_append_cons [] (['/'].intercalate (first :: rest)) '/'
        rw [hbody] at hcons
        exact (htext .root).trans hcons
      rw [components, split_root hsegments]
    | here =>
      have hsegments : (unsplit .here (first :: rest)).segments = ['.'] :: first :: rest := by
        have hcons := Text.splitOn_append_cons ['.'] (['/'].intercalate (first :: rest)) '/'
        rw [hbody] at hcons
        exact (htext .here).trans hcons
      rw [components, split_here hsegments]

/-- The segments in front of the last one that counts can stand where they stood. -/
theorem follows_of_dropIdle (h : dropIdle p.split.2 = front ++ [last]) :
    Follows p.split.1 (dropIdle front) := by
  intro hplain part hpart
  rcases segments_cases p with ⟨_, _, hp⟩ | ⟨_, hp⟩ | hp | ⟨first, rest, hp, hidle⟩
  · simp [split_root hp] at hplain
  · simp [split_here hp] at hplain
  · have hsplit : p.split = (.plain, [[]]) := by rw [split, hp]
    rw [hsplit] at h
    simp [dropIdle, isIdle] at h
  · have hprefix : dropIdle front <+: first :: rest := by
      have hfront : front <+: first :: rest := by
        rw [split_plain hp hidle] at h
        exact (List.prefix_append front [last]).trans (h ▸ dropIdle_prefix_self (first :: rest))
      exact (dropIdle_prefix_self front).trans hfront
    cases hdrop : dropIdle front with
    | nil => simp [hdrop] at hpart
    | cons part' others =>
      rw [hdrop, List.cons_prefix_cons] at hprefix
      rw [hdrop, List.head?_cons, Option.mem_some_iff] at hpart
      rw [← hpart, hprefix.1]
      exact hidle

theorem not_bare {c : Component} (hroot : c ≠ .root) (cs : List Component) :
    ¬ (cs ++ [c] = [] ∨ cs ++ [c] = [.root]) := by
  rintro (h | h)
  · exact List.append_ne_nil_of_right_ne_nil cs (List.cons_ne_nil c []) h
  · rw [← List.nil_append [Component.root]] at h
    exact hroot (List.singleton_inj.mp (List.append_inj' h rfl).2)

/-- The parent has all components but the last. The root and a path without components have none. -/
theorem components_parent? (p : Path) :
    p.parent?.map components =
      if p.components = [] ∨ p.components = [.root] then none else some p.components.dropLast := by
  have hcomponents :
      p.components = p.split.1.components ++ (dropIdle p.split.2).filterMap component? := by
    rw [filterMap_dropIdle, components]
  rcases List.eq_nil_or_concat' (dropIdle p.split.2) with hnil | ⟨front, last, hdrop⟩
  · rw [hnil] at hcomponents
    cases hstart : p.split.1 with
    | plain => simp [parent?, hcomponents, hstart, hnil, Start.components]
    | root => simp [parent?, hcomponents, hstart, hnil, Start.components]
    | here =>
      simp [parent?, hcomponents, hstart, hnil, Start.components]
      rfl
  · obtain ⟨c, hc, hroot⟩ := exists_component (isIdle_of_dropIdle hdrop)
    have hslash : ∀ part ∈ dropIdle front, '/' ∉ part := by
      intro part hpart
      have hkept : part ∈ dropIdle p.split.2 :=
        hdrop ▸ List.mem_append_left [last] ((dropIdle_prefix_self front).subset hpart)
      exact Text.not_mem_of_mem_splitOn
        (mem_segments_of_mem_split ((dropIdle_prefix_self _).subset hkept))
    have hparent : p.parent? = some (unsplit p.split.1 (dropIdle front)) := by
      have hkept : dropIdle p.split.2 ≠ [] := by simp [hdrop]
      unfold parent?
      split
      · contradiction
      · contradiction
      · rw [hdrop, List.dropLast_concat]
    have hlast : p.components = (unsplit p.split.1 (dropIdle front)).components ++ [c] := by
      rw [hcomponents, hdrop, components_unsplit (follows_of_dropIdle hdrop) hslash,
        filterMap_dropIdle, List.filterMap_append, List.append_assoc]
      simp [hc]
    rw [hparent, Option.map_some, hlast, if_neg (not_bare hroot _), List.dropLast_concat]

/-! ## The last segment -/

/-- The segments in front of the last slash. -/
def directories (p : Path) : List (List Char) := p.segments.dropLast

/-- The segment behind the last slash. -/
def lastSegment (p : Path) : List Char := p.segments.getLast (List.splitOn_ne_nil '/' p.text.toList)

theorem segments_eq (p : Path) : p.segments = p.directories ++ [p.lastSegment] :=
  (List.dropLast_append_getLast _).symm

theorem directories_of_segments (h : p.segments = parts ++ [last]) :
    p.directories = parts ∧ p.lastSegment = last := by
  obtain ⟨hparts, hlast⟩ := List.append_inj' ((segments_eq p).symm.trans h) rfl
  exact ⟨hparts, List.singleton_inj.mp hlast⟩

/-- The components of the segments that a path starts with. -/
def leading : List (List Char) → List Component
  | [] :: rest => .root :: rest.filterMap component?
  | ['.'] :: rest => .here :: rest.filterMap component?
  | parts => parts.filterMap component?

theorem leading_of_not_idle (hidle : isIdle first = false) :
    leading (first :: rest) = (first :: rest).filterMap component? := by
  unfold leading
  split
  · simp_all [isIdle]
  · simp_all [isIdle]
  · rfl

/-- A last segment that counts is the last component. -/
theorem components_of_lastSegment (h : isIdle p.lastSegment = false) :
    ∃ c, c ≠ .root ∧ p.components = leading p.directories ++ [c] := by
  obtain ⟨c, hc, hroot⟩ := exists_component h
  refine ⟨c, hroot, ?_⟩
  have hsegments := segments_eq p
  have hlast : ∀ parts : List (List Char),
      (parts ++ [p.lastSegment]).filterMap component? = parts.filterMap component? ++ [c] := by
    intro parts
    rw [List.filterMap_append, List.filterMap_cons_some hc, List.filterMap_nil]
  cases hdirectories : p.directories with
  | nil =>
    rw [hdirectories] at hsegments
    rw [components, split_plain hsegments h]
    exact hlast []
  | cons first rest =>
    rw [hdirectories, List.cons_append] at hsegments
    by_cases hidle : isIdle first = true
    · rcases isIdle_iff.mp hidle with rfl | rfl
      · have hne : rest ++ [p.lastSegment] ≠ [] := by simp
        obtain ⟨next, others, hnext⟩ := List.exists_cons_of_ne_nil hne
        rw [hnext] at hsegments
        rw [components, split_root hsegments, ← hnext, hlast]
        rfl
      · rw [components, split_here hsegments, hlast]
        rfl
    · rw [Bool.not_eq_true] at hidle
      rw [components, split_plain hsegments hidle, leading_of_not_idle hidle, ← List.cons_append,
        hlast]
      rfl

/-- The parent of a path that ends in a segment that counts is made up of the segments in front of
it. -/
theorem components_parent_of_lastSegment (h : isIdle p.lastSegment = false) :
    p.parent?.map components = some (leading p.directories) := by
  obtain ⟨c, hroot, hcomponents⟩ := components_of_lastSegment h
  rw [components_parent?, hcomponents, if_neg (not_bare hroot _), List.dropLast_concat]

/-! ## Sizes -/

/-- The number of characters of a segment, if they count. -/
def segmentSize (segment : List Char) : Nat :=
  if Path.isIdle segment = true then 0 else segment.length

theorem segmentSize_of_not_idle (h : isIdle segment = false) :
    segmentSize segment = segment.length := by
  rw [segmentSize, if_neg (by simp [h])]

theorem segmentSize_le (segment : List Char) : segmentSize segment ≤ segment.length := by
  rw [segmentSize]
  split
  · exact Nat.zero_le _
  · exact le_rfl

/-- Components are as long as the segments that they come from. -/
theorem sum_size_filterMap (parts : List (List Char)) :
    ((parts.filterMap component?).map Component.size).sum = (parts.map segmentSize).sum := by
  induction parts with
  | nil => rfl
  | cons segment parts ih =>
    by_cases hidle : isIdle segment = true
    · rw [List.filterMap_cons_none (component?_of_isIdle hidle), ih, List.map_cons, List.sum_cons,
        segmentSize, if_pos hidle, Nat.zero_add]
    · obtain ⟨c, hc, hsize⟩ : ∃ c, component? segment = some c ∧ c.size = segment.length := by
        rw [component?, if_neg hidle]
        split
        · rename_i hup
          exact ⟨.up, rfl, by rw [eq_of_beq hup]; rfl⟩
        · exact ⟨.named (String.ofList segment), rfl, by rw [Component.size, String.toList_ofList]⟩
      rw [List.filterMap_cons_some hc, List.map_cons, List.sum_cons, hsize, ih, List.map_cons,
        List.sum_cons, segmentSize_of_not_idle (by simpa using hidle)]

theorem sum_size_leading (parts : List (List Char)) :
    ((leading parts).map Component.size).sum = (parts.map segmentSize).sum := by
  unfold leading
  split
  · rw [List.map_cons, List.sum_cons, sum_size_filterMap, List.map_cons, List.sum_cons]
    rfl
  · rw [List.map_cons, List.sum_cons, sum_size_filterMap, List.map_cons, List.sum_cons]
    rfl
  · exact sum_size_filterMap parts

end Path

namespace FileTree

variable {t : FileTree} {p : Path} {place target : Place} {segment : List Char}
  {parts : List (List Char)}

/-! ## Following -/

/-- A path is followed step by step. -/
theorem follow_append (t : FileTree) (place : Place) (front behind : List (List Char)) :
    t.follow place (front ++ behind) =
      t.follow place front >>= fun place => t.follow place behind := by
  induction front generalizing place with
  | nil => rfl
  | cons segment front ih =>
    rw [List.cons_append, follow, follow]
    split
    · rfl
    · rfl
    · split
      · rfl
      · exact ih _

/-- A single step leads on from a directory. -/
theorem follow_singleton_eq_ok (h : t.follow place [segment] = .ok target) :
    t.at? place = some .directory ∧ target = step place segment := by
  rw [follow] at h
  split at h
  · cases h
  · cases h
  · rename_i hplace
    split at h
    · cases h
    · cases h
      exact ⟨hplace, rfl⟩

/-- Where the segments lead that a path starts with. -/
def reach (t : FileTree) : List (List Char) → Except FileProblem Place
  | [] :: rest => t.follow [] rest
  | parts => t.follow t.workplace parts

/-- A path is followed as far as its last slash, and from there one step. -/
theorem resolve_eq (t : FileTree) (p : Path) :
    t.resolve p =
      if p.text.isEmpty then .error .missing
      else if p.text.toList.contains '\x00' then .error .nulInName
      else if pathLimit < p.text.utf8ByteSize then .error .nameTooLong
      else t.reach p.directories >>= fun place => t.follow place [p.lastSegment] := by
  unfold resolve
  split_ifs with hempty
  · rfl
  · rfl
  · rfl
  · rw [Path.segments_eq]
    cases hdirectories : p.directories with
    | nil =>
      -- The empty text is the only path without a slash whose last segment is empty.
      have hlast : p.lastSegment ≠ [] := by
        intro hnil
        have htext : ['/'].intercalate p.segments = p.text.toList := List.intercalate_splitOn '/'
        rw [Path.segments_eq, hdirectories, hnil] at htext
        exact hempty (String.isEmpty_iff.mpr (String.toList_eq_nil_iff.mp htext.symm))
      obtain ⟨c, cs, hcons⟩ := List.exists_cons_of_ne_nil hlast
      rw [hcons]
      exact follow_append t t.workplace [] [c :: cs]
    | cons first rest =>
      cases first with
      | nil => exact follow_append t [] rest [p.lastSegment]
      | cons c cs => exact follow_append t t.workplace ((c :: cs) :: rest) [p.lastSegment]

/-- A path leads to a directory, and one step from there. -/
theorem exists_of_resolve (h : t.resolve p = .ok target) :
    ∃ place, t.reach p.directories = .ok place ∧ t.at? place = some .directory ∧
      target = step place p.lastSegment := by
  rw [resolve_eq] at h
  split_ifs at h
  obtain ⟨place, hplace, hlast⟩ := bind_eq_ok_iff.mp h
  exact ⟨place, hplace, follow_singleton_eq_ok hlast⟩

/-- A path that leads anywhere has no NUL. -/
theorem nul_not_mem_of_resolve (h : t.resolve p = .ok target) : '\x00' ∉ p.text.toList := by
  rw [resolve_eq] at h
  split_ifs at h with _ hnul
  simpa using hnul

/-- From a directory that is reached, only a text that is too long is not followed further. -/
theorem resolve_of_reach (hempty : p.text ≠ "") (hnul : '\x00' ∉ p.text.toList)
    (hreach : t.reach p.directories = .ok place) (hplace : t.at? place = some .directory) :
    t.resolve p = .ok (step place p.lastSegment) ∨ t.resolve p = .error .nameTooLong := by
  have hlast : t.follow place [p.lastSegment] = .ok (step place p.lastSegment) ∨
      t.follow place [p.lastSegment] = .error .nameTooLong := by
    rw [follow, hplace]
    dsimp only
    split_ifs
    · exact .inr rfl
    · exact .inl rfl
  rw [resolve_eq, if_neg (mt String.isEmpty_iff.mp hempty), if_neg (by simpa using hnul), hreach]
  by_cases hlimit : pathLimit < p.text.utf8ByteSize
  · exact .inr (if_pos hlimit)
  · rw [if_neg hlimit]
    exact hlast

/-- A file that is read is in the directory that its path leads to, and its path ends in a name. -/
theorem exists_of_readText {contents : String} (h : t.readText p = .ok contents) :
    ∃ place, t.reach p.directories = .ok place ∧ t.at? place = some .directory ∧
      t.resolve p = .ok (step place p.lastSegment) ∧ Path.isIdle p.lastSegment = false := by
  obtain ⟨content, hread, -⟩ := bind_eq_ok_iff.mp h
  obtain ⟨entry, hopen, hentry⟩ := bind_eq_ok_iff.mp hread
  obtain ⟨target, htarget, hat⟩ := bind_eq_ok_iff.mp hopen
  obtain ⟨place, hreach, hplace, rfl⟩ := exists_of_resolve htarget
  refine ⟨place, hreach, hplace, htarget, ?_⟩
  by_contra hidle
  rw [Bool.not_eq_false] at hidle
  rw [step, if_pos hidle, hplace] at hat
  obtain rfl : Entry.directory = entry := Except.ok.inj hat
  cases hentry

end FileTree

end ExtractionBench
