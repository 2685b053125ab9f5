import Mathlib.Tactic
import ExtractionBench.Proofs.EGraph.NodeIds

/-!
# Blanks around names

The e-class, the operator and the children of a node stand between commas, without the blanks around
them. A root is all that stands behind its mark on a line without the blanks around that line, so it
ends in no blank, but it starts with those that stand behind the mark. The roots are the names on
their lines exactly if no such blank is there.
-/

namespace ExtractionBench.EGraph

open Text (Trimmed)

variable {path : Path} {contents : String} {g : EGraph} {raw : List Char} {raws : List (List Char)}
  {line : Line}
  {lines : List Line}

/-! ## Nodes -/

/-- The e-class, the operator and the e-classes of the children of a node have no blanks around
them. -/
def NamesTrimmed (node : ENode) : Prop :=
  Trimmed node.eclass.toList ∧ Trimmed node.op.toList ∧
    ∃ children : List String, node.children = children.map (· ++ "__0") ∧
      ∀ child ∈ children, Trimmed child.toList

/-- The columns of a row have no blanks around them. -/
theorem trimmed_of_mem_nodeRows {row : List String} (h : row ∈ nodeRows raws) :
    ∀ name ∈ row, Trimmed name.toList := by
  obtain ⟨raw, -, rfl⟩ := List.mem_map.mp h
  intro name hname
  obtain ⟨column, hcolumn, rfl⟩ := List.mem_map.mp hname
  rw [String.toList_ofList]
  exact Text.trimmed_of_mem_columns hcolumn

theorem namesTrimmed_of_describes {row : List String} {node : ENode}
    (hrow : ∀ name ∈ row, Trimmed name.toList) (h : Describes row node) : NamesTrimmed node := by
  obtain ⟨cost, children, rfl, -, hchildren⟩ := h
  simp only [List.forall_mem_cons] at hrow
  obtain ⟨heclass, -, hop, hrest⟩ := hrow
  exact ⟨heclass, hop, children, hchildren, hrest⟩

theorem namesTrimmed_of_ofLegacy (h : ofLegacy contents path = .ok g) :
    ∀ node ∈ g.nodes, NamesTrimmed node.2 := by
  have hrows :=
    (List.forall₂_and_left _ _).mpr ⟨fun row => trimmed_of_mem_nodeRows, describes_of_ofLegacy h⟩
  have hnodes :=
    hrows.flip.imp fun node row hrow => And.intro (namesTrimmed_of_describes hrow.1 hrow.2) hrow.2
  exact List.forall_mem_map.mp ((List.forall₂_and_left _ _).mp hnodes).1

/-! ## Roots -/

/-- A line holds a root. -/
def isRootLine (raw : List Char) : Bool := rootMark.isPrefixOf (Text.trim raw)

/-- The lines that hold a root. -/
def rootLines (raws : List (List Char)) : List (List Char) := raws.filter isRootLine

/-- What stands behind the mark of a root. -/
def rootText (raw : List Char) : List Char := (Text.trim raw).drop rootMark.length

/-- The e-class that is named on the line of a root. -/
def rootName (raw : List Char) : String := String.ofList (Text.trim (rootText raw))

/-- A line gives a root exactly if it starts with the mark of one. -/
theorem root?_of_read (h : Line.read raw = .ok line) :
    line.root? = if isRootLine raw then some (String.ofList (rootText raw)) else none := by
  simp only [Line.read] at h
  split at h
  · rename_i hroot
    cases h
    rw [isRootLine, if_pos hroot]
    rfl
  · rename_i hroot
    rw [isRootLine, if_neg hroot]
    split at h
    · cases h
      rfl
    · cases h
      rfl
    · obtain ⟨eclass, cost, op, children, rfl, -⟩ := describes_of_ofColumns h
      rfl

theorem filterMap_root? (h : List.Forall₂ (fun raw line => Line.read raw = .ok line) raws lines) :
    lines.filterMap Line.root? = (rootLines raws).map fun raw => String.ofList (rootText raw) := by
  induction h with
  | nil => rfl
  | @cons raw line raws lines hread _ ih =>
    by_cases hmark : isRootLine raw = true
    · rw [rootLines, List.filter_cons_of_pos hmark, List.filterMap_cons, root?_of_read hread,
        if_pos hmark, ih]
      rfl
    · rw [rootLines, List.filter_cons_of_neg hmark, List.filterMap_cons, root?_of_read hread,
        if_neg hmark, ih]
      rfl

/-- The roots are what stands behind the marks, each where it comes first. -/
theorem roots_of_ofLegacy (h : ofLegacy contents path = .ok g) :
    g.roots = ((rootLines (Text.lines contents.toList)).map fun raw =>
      String.ofList (rootText raw)).eraseDups := by
  obtain ⟨lines, hlines, rfl⟩ := map_eq_ok_iff.mp h
  exact congrArg List.eraseDups (filterMap_root? (readLines_eq_ok_iff.mp hlines))

/-- The roots of an e-graph are the texts of its root lines. -/
theorem mem_roots_iff (h : ofLegacy contents path = .ok g) {root : String} :
    root ∈ g.roots ↔
      ∃ raw ∈ rootLines (Text.lines contents.toList), String.ofList (rootText raw) = root := by
  rw [roots_of_ofLegacy h, List.mem_eraseDups, List.mem_map]

/-- A root ends where its line ends, which is not in a blank. -/
theorem isBlank_last_rootText (h : raw ∈ rootLines raws) :
    ∀ c ∈ (rootText raw).getLast?, Text.isBlank c = false := by
  obtain ⟨-, hmark⟩ := List.mem_filter.mp h
  obtain ⟨text, htext⟩ := List.isPrefixOf_iff_prefix.mp hmark
  intro c hc
  apply (Text.trimmed_trim raw).last
  rw [rootText, ← htext, List.drop_left] at hc
  rw [← htext, List.getLast?_append, hc]
  rfl

/-- No blank follows on the mark of a root. -/
def NoBlankBehindMark (raws : List (List Char)) : Prop :=
  ∀ raw ∈ rootLines raws, ∀ c ∈ (rootText raw).head?, Text.isBlank c = false

/-- The roots have no blanks around them exactly if none follows a mark. -/
theorem trimmed_roots_iff (h : ofLegacy contents path = .ok g) :
    (∀ root ∈ g.roots, Trimmed root.toList) ↔ NoBlankBehindMark (Text.lines contents.toList) := by
  constructor
  · intro hroots raw hraw
    have hroot := hroots _ ((mem_roots_iff h).mpr ⟨raw, hraw, rfl⟩)
    rw [String.toList_ofList] at hroot
    exact hroot.head
  · intro hmark root hroot
    obtain ⟨raw, hraw, rfl⟩ := (mem_roots_iff h).mp hroot
    rw [String.toList_ofList]
    exact ⟨hmark raw hraw, isBlank_last_rootText hraw⟩

/-- The roots are the names on their lines exactly if no blank follows a mark. -/
theorem roots_eq_names_iff (h : ofLegacy contents path = .ok g) :
    g.roots = ((rootLines (Text.lines contents.toList)).map rootName).eraseDups ↔
      NoBlankBehindMark (Text.lines contents.toList) := by
  rw [← trimmed_roots_iff h]
  constructor
  · intro hnames root hroot
    rw [hnames, List.mem_eraseDups] at hroot
    obtain ⟨raw, -, rfl⟩ := List.mem_map.mp hroot
    rw [rootName, String.toList_ofList]
    exact Text.trimmed_trim _
  · intro htrimmed
    rw [roots_of_ofLegacy h]
    congr 1
    refine List.map_congr_left fun raw hraw => ?_
    have hroot := htrimmed _ ((mem_roots_iff h).mpr ⟨raw, hraw, rfl⟩)
    rw [String.toList_ofList] at hroot
    rw [rootName, hroot.trim_eq]

/-- The names of an accepted text's nodes have no blanks around them, and no root ends in one. That
no root starts with one either is so exactly if none follows on a mark; and exactly then the roots
are the e-classes that are named on their lines, each where it is named first. -/
theorem names_trimmed (h : ofLegacy contents path = .ok g) :
    let lines := Text.lines contents.toList
    (∀ node ∈ g.nodes, NamesTrimmed node.2) ∧
      (∀ root ∈ g.roots, ∀ c ∈ root.toList.getLast?, Text.isBlank c = false) ∧
      ((∀ root ∈ g.roots, Trimmed root.toList) ↔ NoBlankBehindMark lines) ∧
      (g.roots = ((rootLines lines).map rootName).eraseDups ↔ NoBlankBehindMark lines) := by
  intro lines
  refine ⟨namesTrimmed_of_ofLegacy h, fun root hroot => ?_, trimmed_roots_iff h,
    roots_eq_names_iff h⟩
  obtain ⟨raw, hraw, rfl⟩ := (mem_roots_iff h).mp hroot
  rw [String.toList_ofList]
  exact isBlank_last_rootText hraw

/-- A root that is named on two lines, and names with blanks of several kinds around them. -/
def spacedNames : String := " c\u00a0, 1,\tf , \u3000d, c\n## root: c \n\t## root: c\u2003\nd,0,x"

theorem spacedNames_trimmed :
    ∃ g, ofLegacy spacedNames ⟨"data/test.csv"⟩ = .ok g ∧ (∀ node ∈ g.nodes, NamesTrimmed node.2) ∧
      (∀ root ∈ g.roots, Trimmed root.toList) ∧ g.roots = ["c"] ∧
        g.nodes.map (·.2.eclass) = ["c", "d"] := by
  let g : EGraph :=
    ⟨[("c__0", ⟨"f", .ofNat 1, "c", ["d__0", "c__0"]⟩), ("d__0", ⟨"x", .ofNat 0, "d", []⟩)],
      ["c"], none⟩
  have haccepted : ofLegacy spacedNames ⟨"data/test.csv"⟩ = .ok g := rfl
  obtain ⟨hnodes, -, htrimmed, hnames⟩ := names_trimmed haccepted
  have hroots : g.roots = ((rootLines (Text.lines spacedNames.toList)).map rootName).eraseDups := by
    decide
  exact ⟨g, haccepted, hnodes, htrimmed.mpr (hnames.mp hroots), rfl, rfl⟩

/-- A root keeps the blank behind its mark: it is another root than the same name without, and not
the e-class of the node that is called so. -/
theorem blank_kept_in_root :
    ∃ g, ofLegacy "c, 1, x\n## root:  c\n## root: c\n" ⟨"data/test.csv"⟩ = .ok g ∧
      g.roots = [" c", "c"] ∧
      g.nodes.map (·.2.eclass) = ["c"] ∧ ¬ ∀ root ∈ g.roots, Trimmed root.toList := by
  refine ⟨⟨[("c__0", ⟨"x", .ofNat 1, "c", []⟩)], [" c", "c"], none⟩, rfl, rfl, rfl,
    fun htrimmed => ?_⟩
  have hblank := (htrimmed " c" (by simp)).head ' ' rfl
  exact absurd hblank (by decide)

end ExtractionBench.EGraph
