import Mathlib.Tactic
import ExtractionBench.Proofs.EGraph.Legacy
import ExtractionBench.Proofs.Text.Columns

/-!
# Node ids

The nodes of an e-class are numbered from zero in the order of their lines, whatever the e-class is
called, and a child stands for number zero of its e-class. That is a node if the e-class has one at
all, before or behind, and then it is its first one.
-/

namespace ExtractionBench.EGraph

variable {path : Path} {contents : String} {g : EGraph} {raw : List Char} {raws : List (List Char)}
  {line : Line}
  {lines : List Line} {counts : Std.TreeMap String Nat}

/-! ## Lines with nodes -/

/-- A line has a node: it is neither blank nor one of a root or a comment. -/
def isNodeLine (line : List Char) : Bool :=
  match Text.trim line with
  | [] => false
  | c :: _ => c != '#'

/-- The columns of the lines with nodes, without the blanks around them. -/
def nodeRows (lines : List (List Char)) : List (List String) :=
  (lines.filter isNodeLine).map fun line => (Text.columns line).map String.ofList

/-- A row describes a node. The first column is the e-class, and those behind the third are the
e-classes of the children. -/
def Describes (row : List String) (node : ENode) : Prop :=
  ∃ cost children, row = node.eclass :: cost :: node.op :: children ∧
    Decimal.read? cost.toList = some node.cost ∧
    node.children = children.map (· ++ "__0")

theorem readLines_eq_ok_iff {number : Nat} :
    readLines path number raws = .ok lines ↔
      List.Forall₂ (fun raw line => Line.read raw = .ok line) raws lines := by
  induction raws generalizing number lines with
  | nil => cases lines <;> simp [readLines]
  | cons raw raws ih =>
    unfold readLines
    cases hread : Line.read raw with
    | error defect =>
      refine iff_of_false (by simp) fun h => ?_
      cases h with
      | cons hline _ =>
        rw [hread] at hline
        cases hline
    | ok line =>
      simp only [map_eq_ok_iff, ih]
      constructor
      · rintro ⟨rest, hrest, rfl⟩
        exact .cons hread hrest
      · intro h
        cases h with
        | cons hline hrest =>
          rw [hread] at hline
          cases hline
          exact ⟨_, hrest, rfl⟩

theorem nodeId_zero (e : String) : nodeId e 0 = e ++ "__0" := by
  rw [nodeId, String.append_assoc]
  rfl

theorem describes_of_ofColumns (h : Line.ofColumns (Text.trim raw) = .ok line) :
    ∃ eclass cost op children, line = .node eclass cost op children ∧
      Describes ((Text.columns raw).map String.ofList)
        ⟨op, cost, eclass, children.map (nodeId · 0)⟩ := by
  unfold Line.ofColumns at h
  rw [Text.columns_trim] at h
  split at h
  · rename_i eclass cost op children hcolumns
    split at h
    · rename_i x hx
      cases h
      refine ⟨_, x, _, _, rfl, String.ofList cost, children.map String.ofList, ?_, ?_, ?_⟩
      · rw [hcolumns]
        rfl
      · rwa [String.toList_ofList]
      · exact List.map_congr_left fun child _ => nodeId_zero child
    · cases h
  · cases h

/-- What is read from a line: the node that its columns describe, or no node. -/
theorem read_cases (h : Line.read raw = .ok line) :
    (isNodeLine raw = true ∧ ∃ eclass cost op children, line = .node eclass cost op children ∧
        Describes ((Text.columns raw).map String.ofList)
          ⟨op, cost, eclass, children.map (nodeId · 0)⟩) ∨
      (isNodeLine raw = false ∧
        ∀ counts rest, nodesFrom counts (line :: rest) = nodesFrom counts rest) := by
  simp only [Line.read] at h
  split at h
  · rename_i hroot
    cases h
    obtain ⟨rest, hrest⟩ := List.isPrefixOf_iff_prefix.mp hroot
    refine .inr ⟨?_, fun _ _ => rfl⟩
    rw [isNodeLine, ← hrest]
    rfl
  · split at h
    · rename_i hempty
      cases h
      refine .inr ⟨?_, fun _ _ => rfl⟩
      rw [isNodeLine, hempty]
    · rename_i rest hmark
      cases h
      refine .inr ⟨?_, fun _ _ => rfl⟩
      rw [isNodeLine, hmark]
      rfl
    · rename_i hempty hmark
      refine .inl ⟨?_, describes_of_ofColumns h⟩
      unfold isNodeLine
      split
      · rename_i htrim
        exact absurd htrim hempty
      · rename_i c rest htrim
        exact bne_iff_ne.mpr fun hc => hmark rest (hc ▸ htrim)

/-- The rows describe the nodes, in order. -/
theorem describes_nodesFrom
    (h : List.Forall₂ (fun raw line => Line.read raw = .ok line) raws lines) :
    List.Forall₂ Describes (nodeRows raws) ((nodesFrom counts lines).map (·.2)) := by
  induction h generalizing counts with
  | nil => exact .nil
  | @cons raw line raws lines hread _ ih =>
    rcases read_cases hread with ⟨hnode, eclass, cost, op, children, rfl, hrow⟩ | ⟨hnode, hskip⟩
    · rw [nodeRows, List.filter_cons_of_pos hnode]
      exact .cons hrow ih
    · rw [nodeRows, List.filter_cons_of_neg (by simp [hnode]), hskip]
      exact ih

/-! ## Numbers -/

/-- The nodes of an e-class have consecutive numbers, from as many as it had before. -/
theorem ids_nodesFrom (e : String) :
    ((nodesFrom counts lines).filter (·.2.eclass == e)).map (·.1) =
      (List.range' (counts.getD e 0) ((nodesFrom counts lines).filter (·.2.eclass == e)).length).map
      (nodeId e) := by
  induction lines generalizing counts with
  | nil => rfl
  | cons line rest ih =>
    cases line with
    | node eclass cost op children =>
      have hrest := @ih (counts.insert eclass (counts.getD eclass 0 + 1))
      by_cases heq : eclass = e
      · subst heq
        rw [Std.TreeMap.getD_insert_self] at hrest
        rw [nodesFrom, List.filter_cons_of_pos (by simp), List.map_cons, List.length_cons,
          List.range'_succ, List.map_cons, hrest]
      · have hother : ¬ compare eclass e = .eq :=
          fun hc => heq (Std.LawfulEqCmp.compare_eq_iff_eq.mp hc)
        rw [Std.TreeMap.getD_insert, if_neg hother] at hrest
        rw [nodesFrom, List.filter_cons_of_neg (by simpa using heq), hrest]
    | _ => exact ih

theorem ids_of_ofLegacy (h : ofLegacy contents path = .ok g) (e : String) :
    (g.nodes.filter (·.2.eclass == e)).map (·.1) =
      (List.range (g.nodes.filter (·.2.eclass == e)).length).map (nodeId e) := by
  obtain ⟨lines, -, rfl⟩ := map_eq_ok_iff.mp h
  rw [List.range_eq_range']
  exact ids_nodesFrom e

/-- The first node of an e-class has number zero. -/
theorem exists_first_of_ofLegacy (h : ofLegacy contents path = .ok g) {e : String}
    (hclass : ∃ node ∈ g.nodes, node.2.eclass = e) :
    ∃ node, g.nodes.find? (·.2.eclass == e) = some node ∧ node.1 = nodeId e 0 := by
  have hids := ids_of_ofLegacy h e
  rw [← List.head?_filter]
  cases hfilter : g.nodes.filter (·.2.eclass == e) with
  | nil =>
    obtain ⟨node, hnode, heq⟩ := hclass
    exact absurd heq (by simpa using List.filter_eq_nil_iff.mp hfilter node hnode)
  | cons first rest =>
    rw [hfilter, List.length_cons, List.range_succ_eq_map] at hids
    exact ⟨first, rfl, (List.cons.inj hids).1⟩

theorem zero_mem_ids_iff (h : ofLegacy contents path = .ok g) {e : String} :
    nodeId e 0 ∈ g.nodes.map (·.1) ↔ ∃ node ∈ g.nodes, node.2.eclass = e := by
  constructor
  · intro hmem
    obtain ⟨node, hnode, hid⟩ := List.mem_map.mp hmem
    have hclass : node ∈ g.nodes.filter (·.2.eclass == node.2.eclass) :=
      List.mem_filter.mpr ⟨hnode, by simp⟩
    have hown := List.mem_map_of_mem (f := (·.1)) hclass
    rw [ids_of_ofLegacy h] at hown
    obtain ⟨k, -, hk⟩ := List.mem_map.mp hown
    exact ⟨node, hnode, (nodeId_injective (hk.trans hid)).1⟩
  · intro hclass
    obtain ⟨first, hfirst, hid⟩ := exists_first_of_ofLegacy h hclass
    exact List.mem_map.mpr ⟨first, List.mem_of_find?_eq_some hfirst, hid⟩

theorem eclass_of_describes {row : List String} {node : ENode} (h : Describes row node) :
    row.head? = some node.eclass := by
  obtain ⟨cost, children, rfl, -, -⟩ := h
  rfl

theorem describes_of_ofLegacy (h : ofLegacy contents path = .ok g) :
    List.Forall₂ Describes (nodeRows (Text.lines contents.toList)) (g.nodes.map (·.2)) := by
  obtain ⟨lines, hlines, rfl⟩ := map_eq_ok_iff.mp h
  exact describes_nodesFrom (readLines_eq_ok_iff.mp hlines)

/-- The rows begin with the e-classes of the nodes. -/
theorem heads_of_ofLegacy (h : ofLegacy contents path = .ok g) :
    (nodeRows (Text.lines contents.toList)).map List.head? =
      g.nodes.map fun node => some node.2.eclass := by
  rw [← List.forall₂_eq_eq_eq, List.forall₂_map_left_iff, List.forall₂_map_right_iff]
  have hrows := List.forall₂_map_right_iff.mp (describes_of_ofLegacy h)
  exact hrows.imp fun row node => eclass_of_describes

theorem exists_row_iff (h : ofLegacy contents path = .ok g) {e : String} :
    (∃ row ∈ nodeRows (Text.lines contents.toList), row.head? = some e) ↔
      ∃ node ∈ g.nodes, node.2.eclass = e := by
  have hmem := congrArg (some e ∈ ·) (heads_of_ofLegacy h)
  simpa using hmem

/-- No two nodes of an accepted text have one id. The nodes are those of the rows, in order, each
with the number zero of an e-class for each child. The nodes of an e-class have the numbers from
zero, in order; and number zero of an e-class is a node exactly if some row, before or behind,
begins with the e-class. It is then the first node of the e-class. -/
theorem node_ids_sound (h : ofLegacy contents path = .ok g) :
    (g.nodes.map (·.1)).Nodup ∧
      List.Forall₂ Describes (nodeRows (Text.lines contents.toList)) (g.nodes.map (·.2)) ∧
      (∀ e, (g.nodes.filter (·.2.eclass == e)).map (·.1) =
        (List.range (g.nodes.filter (·.2.eclass == e)).length).map fun k =>
          e ++ "__" ++ toString k) ∧
      ∀ e, (e ++ "__0" ∈ g.nodes.map (·.1) ↔
          ∃ row ∈ nodeRows (Text.lines contents.toList), row.head? = some e) ∧
        (e ++ "__0" ∈ g.nodes.map (·.1) →
          ∃ node, g.nodes.find? (·.2.eclass == e) = some node ∧ node.1 = e ++ "__0") := by
  refine ⟨nodup_ids_of_ofLegacy h, describes_of_ofLegacy h, ids_of_ofLegacy h, fun e => ?_⟩
  rw [← nodeId_zero, zero_mem_ids_iff h, exists_row_iff h]
  exact ⟨Iff.rfl, exists_first_of_ofLegacy h⟩

/-- Four e-classes, of which one is called like a node of another and one has no name. The second
node has children that come later. -/
def oddEClasses : String := "a__0, 1, x\n , 2, f, a, late\na, 1, y\nlate, 0, z, a__0, b\n"

theorem oddEClasses_ids :
    ∃ g, ofLegacy oddEClasses ⟨"data/test.csv"⟩ = .ok g ∧
      g.nodes.map (fun node => (node.1, node.2.children)) =
        [("a__0__0", []), ("__0", ["a__0", "late__0"]), ("a__0", []),
          ("late__0", ["a__0__0", "b__0"])] ∧
      (g.nodes.map (·.1)).Nodup ∧
      ∃ node, g.nodes.find? (·.2.eclass == "late") = some node ∧ node.1 = "late__0" := by
  let g : EGraph :=
    ⟨[("a__0__0", ⟨"x", .ofNat 1, "a__0", []⟩), ("__0", ⟨"f", .ofNat 2, "", ["a__0", "late__0"]⟩),
      ("a__0", ⟨"y", .ofNat 1, "a", []⟩),
        ("late__0", ⟨"z", .ofNat 0, "late", ["a__0__0", "b__0"]⟩)], [], none⟩
  have haccepted : ofLegacy oddEClasses ⟨"data/test.csv"⟩ = .ok g := rfl
  obtain ⟨hnodup, -, -, hchildren⟩ := node_ids_sound haccepted
  have hlate : "late" ++ "__0" ∈ g.nodes.map (·.1) := by simp [g]
  exact ⟨g, haccepted, rfl, hnodup, (hchildren "late").2 hlate⟩

end ExtractionBench.EGraph
