import Mathlib.Tactic
import ExtractionBench.Proofs.EGraph.NodeIds
import ExtractionBench.Proofs.Text.Lines

/-!
# Texts put together

If a text in the older format leaves no line open, then what is put behind it is read as if it stood
alone. A fault in the first text is told first, one in the second at a line that is counted from the
first. The nodes of the second text come behind those of the first and are numbered on in each
e-class; everything else of a node stays, also its children, since a child stands for the first node
of its e-class.
-/

namespace ExtractionBench.EGraph

variable {lines more : List Line} {counts counts' : Std.TreeMap String Nat} {shift : String → Nat}

/-! ## Nodes -/

/-- How many of some nodes an e-class has. -/
def nodeCount (nodes : List (String × ENode)) (e : String) : Nat := nodes.countP (·.2.eclass == e)

/-- `y` is the node `x` under an id whose number is greater by the shift of its e-class. -/
def Raised (shift : String → Nat) (x y : String × ENode) : Prop :=
  y.2 = x.2 ∧ ∃ k, x.1 = nodeId x.2.eclass k ∧ y.1 = nodeId x.2.eclass (k + shift x.2.eclass)

theorem getD_insert_name (counts : Std.TreeMap String Nat) (e e' : String) (k : Nat) :
    (counts.insert e k).getD e' 0 = if e = e' then k else counts.getD e' 0 := by
  rw [Std.TreeMap.getD_insert]
  simp only [Std.LawfulEqCmp.compare_eq_iff_eq]

/-- What stands behind some lines is numbered from the nodes that they have. -/
theorem nodesFrom_append (counts : Std.TreeMap String Nat) (lines more : List Line) :
    ∃ counts', nodesFrom counts (lines ++ more) = nodesFrom counts lines ++ nodesFrom counts' more ∧
      ∀ e, counts'.getD e 0 = counts.getD e 0 + nodeCount (nodesFrom counts lines) e := by
  induction lines generalizing counts with
  | nil => exact ⟨counts, rfl, fun e => rfl⟩
  | cons line lines ih =>
    cases line with
    | node eclass cost op children =>
      obtain ⟨counts', hnodes, hcounts⟩ := ih (counts.insert eclass (counts.getD eclass 0 + 1))
      refine ⟨counts', congrArg (_ :: ·) hnodes, fun e => ?_⟩
      rw [hcounts e, getD_insert_name, nodesFrom, nodeCount, nodeCount, List.countP_cons]
      by_cases he : eclass = e
      · subst he
        simp only [if_true, beq_self_eq_true]
        omega
      · simp [he]
    | _ => exact ih counts

/-- Nodes that are numbered from more on have ids with greater numbers, and are otherwise the
same. -/
theorem raised_nodesFrom (h : ∀ e, counts'.getD e 0 = counts.getD e 0 + shift e) :
    List.Forall₂ (Raised shift) (nodesFrom counts lines) (nodesFrom counts' lines) := by
  induction lines generalizing counts counts' with
  | nil => exact .nil
  | cons line lines ih =>
    cases line with
    | node eclass cost op children =>
      refine .cons ⟨rfl, counts.getD eclass 0, rfl, ?_⟩ (ih fun e => ?_)
      · rw [h eclass]
      · rw [getD_insert_name, getD_insert_name]
        split
        · rename_i he
          rw [h eclass, he, Nat.add_right_comm]
        · exact h e
    | _ => exact ih h

/-! ## Roots -/

theorem eraseDups_filter (p : String → Bool) (names : List String) :
    (names.filter p).eraseDups = names.eraseDups.filter p := by
  induction hlength : names.length using Nat.strong_induction_on generalizing names with
  | h n ih =>
    subst hlength
    cases names with
    | nil => rfl
    | cons name names =>
      have hshort : ∀ q : String → Bool, (names.filter q).length < (name :: names).length :=
        fun q => Nat.lt_succ_of_le (List.length_filter_le q names)
      rw [List.eraseDups_cons, List.filter_cons, List.filter_cons]
      split
      · rw [List.eraseDups_cons, List.filter_filter, ← ih _ (hshort _) _ rfl, List.filter_filter]
        simp only [Bool.and_comm]
      · rename_i hp
        rw [← ih _ (hshort _) _ rfl, List.filter_filter]
        -- A name that is left out anyway need not be left out as a repetition.
        congr 1
        refine List.filter_congr fun other _ => ?_
        by_cases hother : other = name
        · simp [hother, hp]
        · simp [hother]

/-- A list goes on with what the other one has that it has not, and repetitions are dropped. -/
theorem eraseDups_append (names names' : List String) :
    (names ++ names').eraseDups =
      names.eraseDups ++ names'.eraseDups.filter (· ∉ names.eraseDups) := by
  rw [List.eraseDups_append, List.removeAll, eraseDups_filter]
  congr 1
  refine List.filter_congr fun name _ => ?_
  simp [List.mem_eraseDups]

/-! ## E-graphs -/

/-- `g` is the e-graph `front` with the e-graph `behind` put behind it. -/
structure Joined (front behind g : EGraph) : Prop where
  /-- The nodes of the second e-graph are numbered on. -/
  nodes : ∃ later, g.nodes = front.nodes ++ later ∧
    List.Forall₂ (Raised (nodeCount front.nodes)) behind.nodes later
  /-- Of its roots, those are added that the first one has not. -/
  roots : g.roots = front.roots ++ behind.roots.filter (· ∉ front.roots)
  /-- Its comment counts if it has one. -/
  comment : g.comment = behind.comment.or front.comment

/-- The lines of two texts, one behind the other, make up both e-graphs, one behind the other. -/
theorem joined_ofLines (lines more : List Line) :
    Joined (ofLines lines) (ofLines more) (ofLines (lines ++ more)) := by
  obtain ⟨counts, hnodes, hcounts⟩ := nodesFrom_append ∅ lines more
  refine ⟨⟨nodesFrom counts more, hnodes, raised_nodesFrom hcounts⟩, ?_, ?_⟩
  · show ((lines ++ more).filterMap Line.root?).eraseDups = _
    rw [List.filterMap_append, eraseDups_append]
    rfl
  · show ((lines ++ more).filterMap Line.comment?).getLast? = _
    rw [List.filterMap_append, List.getLast?_append]
    rfl

/-- A text that leaves no line open is read apart from what stands behind it. Its fault is the fault
of both together; a fault of what stands behind it is told with the lines of both counted; and if
both are accepted, the e-graph of both together is the one with the other behind it. -/
theorem ofLegacy_append {front : String} (h : Text.EndsLine front.toList) (behind : String)
    (path : Path) :
    (∀ fault, ofLegacy front path = .error fault → ofLegacy (front ++ behind) path = .error fault) ∧
      (∀ g fault, ofLegacy front path = .ok g → ofLegacy behind path = .error fault →
        ∃ number defect, fault = .line path number defect ∧
          ofLegacy (front ++ behind) path =
            .error (.line path (number + (Text.lines front.toList).length) defect)) ∧
      ∀ g g', ofLegacy front path = .ok g → ofLegacy behind path = .ok g' →
        ∃ joined, ofLegacy (front ++ behind) path = .ok joined ∧ Joined g g' joined := by
  have hlines : Text.lines (front ++ behind).toList =
      Text.lines front.toList ++ Text.lines behind.toList := by
    rw [String.toList_append, Text.lines_append h]
  refine ⟨fun fault hfront => ?_, fun g fault hfront hbehind => ?_, fun g g' hfront hbehind => ?_⟩
  · obtain ⟨before, raw, after, defect, hsplit, hbefore, hraw, rfl⟩ :=
      ofLegacy_eq_error_iff.mp hfront
    refine ofLegacy_eq_error_iff.mpr
      ⟨before, raw, after ++ Text.lines behind.toList, defect, ?_, hbefore, hraw, rfl⟩
    rw [hlines, hsplit, List.append_assoc, List.cons_append]
  · obtain ⟨lines, hread, -⟩ := map_eq_ok_iff.mp hfront
    obtain ⟨before, raw, after, defect, hsplit, hbefore, hraw, rfl⟩ :=
      ofLegacy_eq_error_iff.mp hbehind
    have hall : ∀ line ∈ Text.lines front.toList, ∃ l, Line.read line = .ok l :=
      ((List.forall₂_and_left _ _).mp
        ((readLines_eq_ok_iff.mp hread).imp fun _ l hl => ⟨⟨l, hl⟩, hl⟩)).1
    refine ⟨_, defect, rfl, ofLegacy_eq_error_iff.mpr ?_⟩
    refine ⟨Text.lines front.toList ++ before, raw, after, defect, ?_, ?_, hraw, ?_⟩
    · rw [hlines, hsplit, List.append_assoc]
    · exact List.forall_mem_append.mpr ⟨hall, hbefore⟩
    · rw [List.length_append, Nat.add_assoc, Nat.add_comm before.length]
  · obtain ⟨lines, hread, rfl⟩ := map_eq_ok_iff.mp hfront
    obtain ⟨more, hread', rfl⟩ := map_eq_ok_iff.mp hbehind
    refine ⟨ofLines (lines ++ more), map_eq_ok_iff.mpr ⟨lines ++ more, ?_, rfl⟩,
      joined_ofLines lines more⟩
    rw [hlines, readLines_eq_ok_iff]
    exact List.rel_append (readLines_eq_ok_iff.mp hread) (readLines_eq_ok_iff.mp hread')

/-- A node and its e-class as a root, with a comment. -/
def oneNode : String := "# one\n## root: a\na, 1, x\n"

/-- Another node of the e-class and one of a child that comes before, two roots and no comment. -/
def moreNodes : String := "\n## root: b\na, 2, y, a\n## root: a\nb, 3, z, a"

theorem oneNode_append :
    Text.EndsLine oneNode.toList ∧
      ofLegacy (oneNode ++ "\na, 1\r\n") ⟨"data/test.csv"⟩ =
        .error (.line ⟨"data/test.csv"⟩ 5 (.tooFewColumns "a, 1")) ∧
      ∃ g g' joined, ofLegacy oneNode ⟨"data/test.csv"⟩ = .ok g ∧
        ofLegacy moreNodes ⟨"data/test.csv"⟩ = .ok g' ∧
        ofLegacy (oneNode ++ moreNodes) ⟨"data/test.csv"⟩ = .ok joined ∧ Joined g g' joined ∧
        g'.nodes.map (·.1) = ["a__0", "b__0"] ∧
        joined.nodes.map (·.1) = ["a__0", "a__1", "b__0"] := by
  let g : EGraph := ⟨[("a__0", ⟨"x", .ofNat 1, "a", []⟩)], ["a"], some "# one"⟩
  let g' : EGraph :=
    ⟨[("a__0", ⟨"y", .ofNat 2, "a", ["a__0"]⟩), ("b__0", ⟨"z", .ofNat 3, "b", ["a__0"]⟩)],
      ["b", "a"], none⟩
  have hends : Text.EndsLine oneNode.toList := by decide
  have hone : ofLegacy oneNode ⟨"data/test.csv"⟩ = .ok g := rfl
  have hmore : ofLegacy moreNodes ⟨"data/test.csv"⟩ = .ok g' := rfl
  refine ⟨hends, ?_, g, g', ?_⟩
  · obtain ⟨-, hfault, -⟩ := ofLegacy_append hends "\na, 1\r\n" ⟨"data/test.csv"⟩
    obtain ⟨number, defect, heq, herror⟩ := hfault g _ hone rfl
    cases heq
    exact herror
  · obtain ⟨-, -, haccepted⟩ := ofLegacy_append hends moreNodes ⟨"data/test.csv"⟩
    obtain ⟨joined, hread, hjoined⟩ := haccepted g g' hone hmore
    refine ⟨joined, hone, hmore, hread, hjoined, rfl, ?_⟩
    cases hread
    rfl

end ExtractionBench.EGraph
