import Mathlib.Data.List.DropRight
import Mathlib.Tactic
import ExtractionBench.EGraph.Legacy
import ExtractionBench.Proofs.EGraph.Decoding
import Std.Data.String.ToNat

/-!
# What the older format of e-graphs is turned into

Nodes are numbered within their e-class, so the ids made of the e-class and the number are distinct
whatever the e-classes are called. An e-graph in the older format can therefore be written as JSON
and read again, unless one of its costs is an infinity or no number.
-/

namespace ExtractionBench.EGraph

/-! ## Ids -/

/-- What stands behind the last underscore of a text, and what stands before it. -/
theorem append_underscore_inj {before before' behind behind' : List Char} (h : '_' ∉ behind)
    (h' : '_' ∉ behind') (heq : before ++ '_' :: behind = before' ++ '_' :: behind') :
    before = before' ∧ behind = behind' := by
  have hbehind :
      ∀ {xs ys : List Char}, '_' ∉ ys → (xs ++ '_' :: ys).rtakeWhile (· != '_') = ys := by
    intro xs ys hys
    have hall : ∀ c ∈ ys.reverse, (c != '_') = true := fun c hc => by
      rw [List.mem_reverse] at hc
      exact bne_iff_ne.mpr fun hc' => hys (hc' ▸ hc)
    rw [List.rtakeWhile, List.reverse_append, List.reverse_cons, List.append_assoc,
      List.takeWhile_append_of_pos hall]
    simp
  have hsame : behind = behind' := by rw [← hbehind h, heq, hbehind h']
  subst hsame
  exact ⟨List.append_cancel_right heq, rfl⟩

/-- An id tells the e-class and the number. -/
theorem nodeId_injective {e e' : String} {k k' : Nat} (h : nodeId e k = nodeId e' k') :
    e = e' ∧ k = k' := by
  have hdigits : ∀ n : Nat, '_' ∉ (toString n).toList := fun n => by
    rw [Nat.toString_eq_ofList_toDigits, String.toList_ofList]
    exact Nat.underscore_not_in_toDigits
  have hlist : (e.toList ++ ['_']) ++ '_' :: (toString k).toList =
      (e'.toList ++ ['_']) ++ '_' :: (toString k').toList := by
    simpa [nodeId] using congrArg String.toList h
  obtain ⟨he, hk⟩ := append_underscore_inj (hdigits k) (hdigits k') hlist
  exact ⟨String.toList_inj.mp (List.append_cancel_right he),
    Nat.repr_inj.mp (String.toList_inj.mp hk)⟩

/-- Nodes get numbers that were not given before. -/
theorem exists_number_of_mem_nodesFrom {counts : Std.TreeMap String Nat} {lines : List Line}
    {id : String} (h : id ∈ (nodesFrom counts lines).map (·.1)) :
    ∃ e k, id = nodeId e k ∧ counts.getD e 0 ≤ k := by
  induction lines generalizing counts with
  | nil => cases h
  | cons line rest ih =>
    cases line with
    | node eclass cost op children =>
      rcases List.mem_cons.mp h with rfl | h
      · exact ⟨eclass, _, rfl, le_refl _⟩
      · obtain ⟨e, k, rfl, hk⟩ := ih h
        refine ⟨e, k, rfl, ?_⟩
        rw [Std.TreeMap.getD_insert] at hk
        split_ifs at hk with heq
        · rw [← Std.LawfulEqCmp.compare_eq_iff_eq.mp heq]
          omega
        · exact hk
    | _ => exact ih h

theorem nodup_nodesFrom (counts : Std.TreeMap String Nat) (lines : List Line) :
    ((nodesFrom counts lines).map (·.1)).Nodup := by
  induction lines generalizing counts with
  | nil => exact List.nodup_nil
  | cons line rest ih =>
    cases line with
    | node eclass cost op children =>
      refine List.nodup_cons.mpr ⟨fun h => ?_, ih _⟩
      -- The later nodes of the e-class have greater numbers.
      obtain ⟨e, k, hid, hk⟩ := exists_number_of_mem_nodesFrom h
      obtain ⟨rfl, rfl⟩ := nodeId_injective hid
      rw [Std.TreeMap.getD_insert_self] at hk
      omega
    | _ => exact ih counts

theorem nodup_ids_of_ofLegacy {contents : String} {path : Path} {g : EGraph}
    (h : ofLegacy contents path = .ok g) :
    (g.nodes.map (·.1)).Nodup := by
  obtain ⟨lines, -, rfl⟩ := map_eq_ok_iff.mp h
  exact nodup_nodesFrom _ lines

/-! ## Malformed lines -/

/-- Lines are refused for the first of them that is malformed. -/
theorem readLines_eq_error_iff {path : Path} {number : Nat} {lines : List (List Char)}
    {fault : Fault Double} :
    readLines path number lines = .error fault ↔
      ∃ before raw after defect, lines = before ++ raw :: after ∧
        (∀ line ∈ before, ∃ l, Line.read line = .ok l) ∧
        Line.read raw = .error defect ∧ fault = .line path (number + before.length) defect := by
  induction lines generalizing number with
  | nil => simp [readLines]
  | cons raw rest ih =>
    rw [readLines]
    cases hraw : Line.read raw with
    | error defect =>
      constructor
      · intro h
        cases h
        exact ⟨[], raw, rest, defect, rfl, by simp, hraw, rfl⟩
      · rintro ⟨before, bad, after, defect', heq, hbefore, hbad, rfl⟩
        cases before with
        | nil =>
          cases heq
          cases hraw.symm.trans hbad
          rfl
        | cons first before =>
          cases heq
          obtain ⟨l, hl⟩ := hbefore raw List.mem_cons_self
          cases hraw.symm.trans hl
    | ok line =>
      dsimp only
      rw [map_eq_error_iff, ih]
      constructor
      · rintro ⟨before, bad, after, defect, rfl, hbefore, hbad, rfl⟩
        refine ⟨raw :: before, bad, after, defect, rfl,
          List.forall_mem_cons.mpr ⟨⟨line, hraw⟩, hbefore⟩, hbad, ?_⟩
        rw [List.length_cons, Nat.add_right_comm, Nat.add_assoc]
      · rintro ⟨before, bad, after, defect, heq, hbefore, hbad, rfl⟩
        cases before with
        | nil =>
          cases heq
          cases hraw.symm.trans hbad
        | cons first before =>
          cases heq
          refine ⟨before, bad, after, defect, rfl, (List.forall_mem_cons.mp hbefore).2, hbad, ?_⟩
          rw [List.length_cons, Nat.add_right_comm, Nat.add_assoc]

theorem ofLegacy_eq_error_iff {contents : String} {path : Path} {fault : Fault Double} :
    ofLegacy contents path = .error fault ↔
      ∃ before raw after defect, Text.lines contents.toList = before ++ raw :: after ∧
        (∀ line ∈ before, ∃ l, Line.read line = .ok l) ∧ Line.read raw = .error defect ∧
        fault = .line path (1 + before.length) defect := by
  rw [ofLegacy, map_eq_error_iff, readLines_eq_error_iff]

/-! ## Reading back -/

/-- An e-graph in the older format is decoded from its JSON value exactly if none of its costs is an
infinity or no number; otherwise a `null` is met where the cost should be. -/
theorem ofLegacy_reads_back_iff {contents : String} {path : Path} {g : EGraph}
    (h : ofLegacy contents path = .ok g) :
    (ofJson g.toJson = .ok g ↔ ∀ node ∈ g.nodes, node.2.cost.isFinite = true) ∧
      (ofJson g.toJson ≠ .ok g → ofJson g.toJson = .error (.wrongForm .null .number)) := by
  have hids := nodup_ids_of_ofLegacy h
  by_cases hcosts : ∀ node ∈ g.nodes, node.2.cost.isFinite = true
  · have hok : ofJson g.toJson = .ok g := Lossless.ofJson_toJson ⟨hids, hcosts⟩
    exact ⟨iff_of_true hok hcosts, fun hne => absurd hok hne⟩
  · have herror := ofJson_toJson_eq_error hids hcosts
    refine ⟨iff_of_false (fun hok => ?_) hcosts, fun _ => herror⟩
    rw [herror] at hok
    cases hok

/-- A graph of two nodes in one e-class, with costs written in two ways. -/
def twoNodes : String := "0, 1, x\n0, 2.5e0, y, 0\n"

theorem twoNodes_read_back :
    ∃ g, ofLegacy twoNodes ⟨"data/test.csv"⟩ = .ok g ∧ g.nodes.length = 2 ∧
      ofJson g.toJson = .ok g := by
  let g : EGraph :=
    ⟨[("0__0", ⟨"x", .ofNat 1, "0", []⟩), ("0__1", ⟨"y", ⟨0x4004000000000000⟩, "0", ["0__0"]⟩)],
      [], none⟩
  have haccepted : ofLegacy twoNodes ⟨"data/test.csv"⟩ = .ok g := rfl
  have hcosts : ∀ node ∈ g.nodes, node.2.cost.isFinite = true := by decide +kernel
  exact ⟨g, haccepted, rfl, (ofLegacy_reads_back_iff haccepted).1.mpr hcosts⟩

/-- An infinite cost is accepted, and written as a `null` that is not read back. -/
theorem infinite_cost_not_read_back :
    ∃ g, ofLegacy "0, inf, x\n" ⟨"data/test.csv"⟩ = .ok g ∧
      ofJson g.toJson = .error (.wrongForm .null .number) := by
  exact ⟨⟨[("0__0", ⟨"x", .infinity, "0", []⟩)], [], none⟩, rfl, rfl⟩

end ExtractionBench.EGraph
