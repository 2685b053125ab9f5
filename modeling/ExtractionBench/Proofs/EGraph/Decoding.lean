import Mathlib.Tactic
import ExtractionBench.EGraph.Json
import ExtractionBench.Proofs.Json.Decoding

/-!
# E-graphs and their JSON values

An e-graph is decoded from its value exactly if its node ids are distinct and JSON has its costs,
that is, if they are finite. An e-graph that is decoded from any value is such a one, so nothing is
lost by writing it again.
-/

namespace ExtractionBench

open Json

/-! ## Nodes -/

namespace ENode

variable {n : ENode} {v : Json}

/-- What is read of a cost is finite. -/
theorem Fields.finite_of_read {fs fs' : Fields} {key : String}
    (hfs : ∀ x ∈ fs.cost, x.isFinite = true) (h : fs.read key v = .ok fs') :
    ∀ x ∈ fs'.cost, x.isFinite = true := by
  unfold Fields.read at h
  split_ifs at h
  · obtain ⟨_, -, rfl⟩ := map_eq_ok_iff.mp h
    exact hfs
  · obtain ⟨cost, hcost, rfl⟩ := map_eq_ok_iff.mp h
    intro x hx
    cases hx
    exact isFinite_of_asDouble hcost
  · obtain ⟨_, -, rfl⟩ := map_eq_ok_iff.mp h
    exact hfs
  · obtain ⟨_, -, rfl⟩ := map_eq_ok_iff.mp h
    exact hfs
  · cases h
    exact hfs

theorem Fields.finite_of_readMembers {members : List (String × Json)} {fs : Fields}
    (h : readMembers Fields.read .none members = .ok fs) : ∀ x ∈ fs.cost, x.isFinite = true :=
  foldlM_keeps (fun x hx => by cases hx) (fun _ _ _ => finite_of_read) h

theorem Fields.cost_of_complete {fs : Fields} (h : fs.complete = .ok n) :
    fs.cost = some n.cost := by
  obtain ⟨op, cost, eclass, children⟩ := fs
  unfold Fields.complete at h
  simp only [bind_eq_ok_iff] at h
  obtain ⟨_, -, c, hc, _, -, _, -, h⟩ := h
  cases h
  cases cost with
  | none => cases hc
  | some x =>
    cases hc
    rfl

/-- Every node that is decoded has a finite cost. -/
theorem isFinite_of_ofJson (h : ofJson v = .ok n) : n.cost.isFinite = true := by
  cases v with
  | object members =>
    obtain ⟨fs, hfs, h⟩ := bind_eq_ok_iff.mp h
    exact Fields.finite_of_readMembers hfs _ (Fields.cost_of_complete h)
  | array items =>
    obtain ⟨fs, hfs, h⟩ := bind_eq_ok_iff.mp h
    by_cases hshort : items.length < 4
    · rw [if_pos hshort] at h
      cases h
    rw [if_neg hshort] at h
    by_cases hlong : 4 < items.length
    · rw [if_pos hlong] at h
      cases h
    rw [if_neg hlong] at h
    exact Fields.finite_of_readMembers hfs _ (Fields.cost_of_complete h)
  | _ => cases h

theorem ofJson_toJson_eq (n : ENode) :
    ofJson n.toJson = (ofDouble n.cost).asDouble.map fun cost => { n with cost := cost } := by
  have hkeys : (([("op", .text n.op), ("cost", .ofDouble n.cost), ("eclass", .text n.eclass),
      ("children", .array (n.children.map .text))] : List (String × Json)).map (·.1)).Nodup := by
    simp
  show (do (← readMembers Fields.read .none (merge _)).complete) = _
  rw [merge_eq_self hkeys]
  cases hcost : (ofDouble n.cost).asDouble <;>
    simp [readMembers, Fields.read, asText, hcost, asTexts_map_text, Fields.none, Fields.complete,
      require, Except.map, bind, Except.bind, pure, Except.pure]

theorem ofJson_toJson (h : n.cost.isFinite = true) : ofJson n.toJson = .ok n := by
  rw [ofJson_toJson_eq, asDouble_ofDouble h]
  rfl

/-- A cost that JSON has not is written as `null`, which is no cost. -/
theorem ofJson_toJson_eq_error (h : n.cost.isFinite = false) :
    ofJson n.toJson = .error (.wrongForm .null .number) := by
  rw [ofJson_toJson_eq, ofDouble, h]
  rfl

end ENode

/-! ## E-graphs -/

namespace EGraph

variable {g : EGraph} {v : Json}

/-- An e-graph can be written as JSON without loss. -/
structure Lossless (g : EGraph) : Prop where
  /-- No two nodes have one id. -/
  ids : (g.nodes.map (·.1)).Nodup
  /-- JSON has the costs. -/
  costs : ∀ node ∈ g.nodes, node.2.cost.isFinite = true

theorem Fields.nodup_of_read {fs fs' : Fields} {key : String}
    (hfs : ∀ ms ∈ fs.nodes, (ms.map (·.1)).Nodup) (h : fs.read key v = .ok fs') :
    ∀ ms ∈ fs'.nodes, (ms.map (·.1)).Nodup := by
  unfold Fields.read at h
  split_ifs at h
  · obtain ⟨members, hmembers, rfl⟩ := map_eq_ok_iff.mp h
    intro ms hms
    cases hms
    exact nodup_of_asMembers hmembers
  · obtain ⟨_, -, rfl⟩ := map_eq_ok_iff.mp h
    exact hfs
  · obtain ⟨_, -, rfl⟩ := map_eq_ok_iff.mp h
    exact hfs
  · cases h
    exact hfs

theorem Fields.nodup_of_readMembers {members : List (String × Json)} {fs : Fields}
    (h : readMembers Fields.read .none members = .ok fs) : ∀ ms ∈ fs.nodes, (ms.map (·.1)).Nodup :=
  foldlM_keeps (fun ms hms => by cases hms) (fun _ _ _ => nodup_of_read) h

theorem Fields.complete_some (members : List (String × Json)) (roots : List String)
    (comment : Option String) :
    Fields.complete ⟨some members, some roots, comment⟩ =
      (members.mapM fun m => (ENode.ofJson m.2).map fun n => (m.1, n)).map fun nodes =>
        ⟨nodes, roots, comment⟩ := by
  show ((members.mapM fun m => (ENode.ofJson m.2).map fun n => (m.1, n)) >>= fun nodes =>
    pure (⟨nodes, roots, comment⟩ : EGraph)) = _
  cases members.mapM fun m => (ENode.ofJson m.2).map fun n => (m.1, n) <;> rfl

/-- Complete fields with distinct ids make up an e-graph that can be written without loss. -/
theorem Fields.lossless_of_complete {fs : Fields} (hfs : ∀ ms ∈ fs.nodes, (ms.map (·.1)).Nodup)
    (h : fs.complete = .ok g) : g.Lossless := by
  unfold Fields.complete at h
  obtain ⟨members, hmembers, h⟩ := bind_eq_ok_iff.mp h
  obtain ⟨roots, -, h⟩ := bind_eq_ok_iff.mp h
  obtain ⟨nodes, hnodes, h⟩ := bind_eq_ok_iff.mp h
  cases h
  have hfound : members ∈ fs.nodes := by
    cases hfs : fs.nodes with
    | none =>
      rw [hfs] at hmembers
      cases hmembers
    | some ms =>
      rw [hfs] at hmembers
      cases hmembers
      rfl
  have hids : nodes.map (·.1) = members.map (·.1) := by
    refine map_eq_map_of_mapM hnodes fun member _ node hnode => ?_
    obtain ⟨_, -, rfl⟩ := map_eq_ok_iff.mp hnode
    rfl
  refine ⟨hids ▸ hfs members hfound, fun node hnode => ?_⟩
  obtain ⟨member, -, hmember⟩ := exists_mem_of_mapM hnodes hnode
  obtain ⟨n, hn, rfl⟩ := map_eq_ok_iff.mp hmember
  exact ENode.isFinite_of_ofJson hn

/-- Every e-graph that is decoded can be written without loss. -/
theorem lossless_of_ofJson (h : ofJson v = .ok g) : g.Lossless := by
  cases v with
  | object members =>
    obtain ⟨fs, hfs, h⟩ := bind_eq_ok_iff.mp h
    exact Fields.lossless_of_complete (Fields.nodup_of_readMembers hfs) h
  | array items =>
    obtain ⟨fs, hfs, h⟩ := bind_eq_ok_iff.mp h
    by_cases hshort : items.length < 3
    · rw [if_pos hshort] at h
      cases h
    rw [if_neg hshort] at h
    by_cases hlong : 3 < items.length
    · rw [if_pos hlong] at h
      cases h
    rw [if_neg hlong] at h
    exact Fields.lossless_of_complete (Fields.nodup_of_readMembers hfs) h
  | _ => cases h

/-- The members of the value of an e-graph. -/
def jsonMembers (g : EGraph) : List (String × Json) :=
  ("nodes", .object (g.nodes.map fun node => (node.1, node.2.toJson)))
    :: ("root_eclasses", .array (g.roots.map .text))
    :: g.comment.toList.map fun comment => ("comment", .text comment)

theorem nodup_jsonMembers (g : EGraph) : (g.jsonMembers.map (·.1)).Nodup := by
  cases hcomment : g.comment <;> simp [jsonMembers, hcomment]

theorem toJson_eq (hids : (g.nodes.map (·.1)).Nodup) : g.toJson = .object g.jsonMembers := by
  have hnodes : ((g.nodes.map fun node => (node.1, node.2.toJson)).map (·.1)).Nodup := by
    rwa [List.map_map]
  unfold toJson
  rw [merge_eq_self hnodes]
  cases hcomment : g.comment <;> simp [jsonMembers, hcomment]

/-- Decoding an e-graph from its value comes down to decoding each node from its own. -/
theorem ofJson_toJson_eq (hids : (g.nodes.map (·.1)).Nodup) :
    ofJson g.toJson =
      (g.nodes.mapM fun node => (ENode.ofJson node.2.toJson).map fun n => (node.1, n)).map
        fun nodes => { g with nodes := nodes } := by
  have hnodes : ((g.nodes.map fun node => (node.1, node.2.toJson)).map (·.1)).Nodup := by
    rwa [List.map_map]
  have hread : readMembers Fields.read .none g.jsonMembers =
      .ok ⟨some (g.nodes.map fun node => (node.1, node.2.toJson)), some g.roots, g.comment⟩ := by
    cases hcomment : g.comment <;>
      simp [readMembers, jsonMembers, hcomment, Fields.read, Fields.none, asMembers_object hnodes,
        asTexts_map_text, asText?, asText, Except.map, bind, Except.bind, pure, Except.pure]
  rw [toJson_eq hids]
  show (readMembers Fields.read .none (merge g.jsonMembers) >>= Fields.complete) = _
  rw [merge_eq_self (nodup_jsonMembers g), hread]
  show Fields.complete
    ⟨some (g.nodes.map fun node => (node.1, node.2.toJson)), some g.roots, g.comment⟩ = _
  rw [Fields.complete_some, List.mapM_map]
  rfl

/-- An e-graph that can be written without loss is decoded from its value. -/
theorem Lossless.ofJson_toJson (h : g.Lossless) : ofJson g.toJson = .ok g := by
  have hnodes : (g.nodes.mapM fun node => (ENode.ofJson node.2.toJson).map fun n => (node.1, n)) =
      .ok g.nodes := by
    rw [mapM_eq_ok_iff, List.forall₂_same]
    intro node hnode
    exact map_eq_ok_iff.mpr ⟨node.2, ENode.ofJson_toJson (h.costs node hnode), rfl⟩
  rw [ofJson_toJson_eq h.ids, hnodes]
  rfl

/-- With distinct ids the only obstacle is a cost that JSON has not. -/
theorem ofJson_toJson_eq_error (hids : (g.nodes.map (·.1)).Nodup)
    (hcosts : ¬ ∀ node ∈ g.nodes, node.2.cost.isFinite = true) :
    ofJson g.toJson = .error (.wrongForm .null .number) := by
  rw [ofJson_toJson_eq hids]
  cases hnodes : g.nodes.mapM fun node => (ENode.ofJson node.2.toJson).map fun n => (node.1, n) with
  | ok nodes =>
    refine absurd (fun node hnode => ?_) hcosts
    obtain ⟨_, hn⟩ := exists_mapM_eq_ok_iff.mp ⟨nodes, hnodes⟩ node hnode
    obtain ⟨n, hn, -⟩ := map_eq_ok_iff.mp hn
    by_contra hcost
    rw [ENode.ofJson_toJson_eq_error (by simpa using hcost)] at hn
    cases hn
  | error problem =>
    obtain ⟨node, -, hn⟩ := exists_error_of_mapM hnodes
    cases hcost : node.2.cost.isFinite with
    | true =>
      rw [ENode.ofJson_toJson hcost] at hn
      cases hn
    | false =>
      rw [ENode.ofJson_toJson_eq_error hcost] at hn
      cases hn
      rfl

/-- An e-graph is decoded from its value exactly if its node ids are distinct and its costs are
finite; and whatever value an e-graph was decoded from, it is decoded from its own value too. -/
theorem ofJson_toJson_iff (g : EGraph) :
    (ofJson g.toJson = .ok g ↔
      (g.nodes.map (·.1)).Nodup ∧ ∀ node ∈ g.nodes, node.2.cost.isFinite = true) ∧
      ∀ v, ofJson v = .ok g → ofJson g.toJson = .ok g := by
  refine ⟨⟨fun h => ?_, fun h => ?_⟩, fun v h => (lossless_of_ofJson h).ofJson_toJson⟩
  · exact ⟨(lossless_of_ofJson h).ids, (lossless_of_ofJson h).costs⟩
  · exact Lossless.ofJson_toJson ⟨h.1, h.2⟩

end EGraph

end ExtractionBench
