import Mathlib
import ExtractionBench.EGraph.Conversion
import ExtractionBench.Proofs.EGraph.Decoding
import ExtractionBench.Proofs.Json.Printed
import ExtractionBench.Proofs.Json.WholeNumbers

/-!
# The text of an e-graph

What is written for an e-graph is read back as the e-graph, whatever characters its strings have, if
its ids are distinct and each of its costs is found again when its own text is read.
-/

namespace ExtractionBench.EGraph

open Json (Readable ReadsBack wholeBound read?)

variable {g : EGraph}

theorem readable_texts (depth : Nat) (xs : List String) :
    Readable (depth + 1) (.array (xs.map .text)) := by
  apply Readable.array
  intro v hv
  obtain ⟨s, -, rfl⟩ := List.mem_map.mp hv
  exact .text s

/-- A finite cost can be read back if its number is. -/
theorem readable_cost {depth : Nat} {cost : Double} (hfinite : cost.isFinite = true)
    (hcost : ReadsBack cost) :
    Readable depth (Json.ofDouble cost) := by
  have hnumber : Json.ofDouble cost = .number (.real cost) := if_pos hfinite
  rw [hnumber]
  apply Readable.number
  rw [Json.writeNumber, String.ofList_toList]
  exact hcost

/-- A node can be read back if its cost is. -/
theorem readable_node {depth : Nat} {node : ENode} (hfinite : node.cost.isFinite = true)
    (hcost : ReadsBack node.cost) :
    Readable (depth + 2) node.toJson := by
  apply Readable.object
  simp only [List.forall_mem_cons, List.not_mem_nil, false_implies, implies_true, and_true]
  exact ⟨.text _, readable_cost hfinite hcost, .text _, readable_texts depth _⟩

/-- An e-graph without loss can be read back from its text if all of its costs are. -/
theorem Lossless.readable (h : g.Lossless) (hcosts : ∀ node ∈ g.nodes, ReadsBack node.2.cost) :
    Readable Json.depthLimit g.toJson := by
  have hnodes : ∀ m ∈ g.nodes.map fun node => (node.1, node.2.toJson), Readable 125 m.2 := by
    intro m hm
    obtain ⟨node, hnode, rfl⟩ := List.mem_map.mp hm
    exact readable_node (h.costs node hnode) (hcosts node hnode)
  have hcomment : ∀ m ∈ g.comment.toList.map fun comment => ("comment", Json.text comment),
      Readable 126 m.2 := by
    intro m hm
    obtain ⟨comment, -, rfl⟩ := List.mem_map.mp hm
    exact .text comment
  rw [toJson_eq h.ids]
  apply Readable.object
  unfold jsonMembers
  rw [List.forall_mem_cons, List.forall_mem_cons]
  exact ⟨.object hnodes, readable_texts _ g.roots, hcomment⟩

/-- The text of an e-graph that can be written without loss is read back as the e-graph, if each of
its costs is read back from a text of its own; every whole number up to the bound is. -/
theorem jsonText_reads_back :
    (∀ n ≤ wholeBound, ReadsBack (Double.ofNat n) ∧ ReadsBack (-Double.ofNat n)) ∧
      ∀ g : EGraph, (g.nodes.map (·.1)).Nodup → (∀ node ∈ g.nodes, node.2.cost.isFinite = true) →
        (∀ node ∈ g.nodes, ReadsBack node.2.cost) →
        read? g.jsonText = .ok g.toJson ∧ ofJson g.toJson = .ok g := by
  refine ⟨fun n hn => Json.readsBack_ofNat hn, ?_⟩
  intro g hids hcosts hread
  have hlossless : g.Lossless := ⟨hids, hcosts⟩
  exact ⟨(hlossless.readable hread).read?_pretty, hlossless.ofJson_toJson⟩

/-- A graph with names that are escaped, and an empty one. -/
def oddNames : EGraph where
  nodes := [("a\"b\\", ⟨"\n\t\x01", .ofNat 3, "é", ["", "a\"b\\"]⟩), ("", ⟨"/", -.ofNat 7, "", []⟩)]
  roots := []
  comment := some "one line\r\nand another"

theorem oddNames_reads_back :
    read? oddNames.jsonText = .ok oddNames.toJson ∧ ofJson oddNames.toJson = .ok oddNames := by
  apply jsonText_reads_back.2 oddNames
  · decide
  · decide +kernel
  · intro node hnode
    simp only [oddNames, List.mem_cons, List.not_mem_nil, or_false] at hnode
    rcases hnode with rfl | rfl
    · exact (jsonText_reads_back.1 3 (by decide)).1
    · exact (jsonText_reads_back.1 7 (by decide)).2

/-- A graph with the first whole number for its cost that is not read back. -/
def greatCost : EGraph where
  nodes := [("0__0", ⟨"x", .ofNat (wholeBound + 1), "0", []⟩)]
  roots := []
  comment := none

theorem greatCost_read_otherwise :
    ((greatCost.nodes.map (·.1)).Nodup ∧ ∀ node ∈ greatCost.nodes, node.2.cost.isFinite = true) ∧
      wholeBound + 1 < 2 ^ 53 ∧ ¬ ReadsBack (Double.ofNat (wholeBound + 1)) ∧
      ∃ v g, read? greatCost.jsonText = .ok v ∧ ofJson v = .ok g ∧ g ≠ greatCost := by
  have hread : ((read? greatCost.jsonText).toOption.bind fun v => (ofJson v).toOption)
      = some { greatCost with nodes := [("0__0", ⟨"x", ⟨4835064559944964509⟩, "0", []⟩)] } := by
        decide +kernel
  have hok : ∀ {ε α : Type} {x : Except ε α} {a : α}, x.toOption = some a → x = .ok a := by
    rintro ε α (e | b) a h
    · cases h
    · cases h
      rfl
  obtain ⟨v, hv, hg⟩ := Option.bind_eq_some_iff.mp hread
  refine ⟨⟨by decide, by decide +kernel⟩, by decide, Json.not_readsBack_beyond, v, _, hok hv,
    hok hg, ?_⟩
  decide +kernel

end ExtractionBench.EGraph
