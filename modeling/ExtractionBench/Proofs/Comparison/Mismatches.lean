import Mathlib.Tactic
import ExtractionBench.Proofs.Comparison.AllPairs
import ExtractionBench.Proofs.Text.ByteOrder

/-!
# Which differing costs are told

The costs that differ are told benchmark by benchmark, in the order of the names, of each the tree
cost before the dag cost. Two extractors that may differ in tree costs are compared like two that
must not: the comparison fails with the same fault, or only the tree costs are missing among those
that are told.
-/

namespace ExtractionBench.Comparison

open Measurement (ofExtractor benchmarks)
open Statistics (QuantileMethod)
open Text (utf8)

section Generic

variable {α : Type} {ms : List (Measurement α)} {first second : String} {kind : CostKind}

/-- This is a differing cost of two extractors, told with the results that both have for a
benchmark. -/
inductive Differing [Scalar α] (ms : List (Measurement α)) (first second : String) :
    Mismatch α → Prop where
  | mk {a b : Measurement α} {kind : CostKind} (hfirst : a ∈ ofExtractor first ms)
      (hsecond : b ∈ ofExtractor second ms)
      (hname : b.name = a.name) (hdiffer : (a.cost kind != b.cost kind) = true) :
      Differing ms first second ⟨a.name, kind, a.cost kind, b.cost kind⟩

/-- A differing cost is told before another one: its benchmark is before the other's, by the bytes
of the names, or it is the tree cost and the other the dag cost of one benchmark. -/
def Mismatch.Before (m m' : Mismatch α) : Prop :=
  utf8 m.name < utf8 m'.name ∨ m.name = m'.name ∧ m.kind = .tree ∧ m'.kind = .dag

/-- The summary without the differing tree costs. -/
def Summary.withoutTree (s : Summary α) : Summary α :=
  { s with mismatches := s.mismatches.filter (·.kind != .tree) }

variable [Scalar α] {pair : Pair α} {m : Mismatch α}

/-! ## One benchmark -/

theorem mem_mismatchesOf_iff :
    m ∈ mismatchesOf .mustMatch pair ↔
      (pair.1.cost m.kind != pair.2.cost m.kind) = true ∧
        m = ⟨pair.1.name, m.kind, pair.1.cost m.kind, pair.2.cost m.kind⟩ := by
  simp only [mismatchesOf, if_pos, List.mem_append, List.mem_ite_nil_right, List.mem_singleton]
  constructor
  · rintro (⟨hdiffer, rfl⟩ | ⟨hdiffer, rfl⟩)
    · exact ⟨hdiffer, rfl⟩
    · exact ⟨hdiffer, rfl⟩
  · rintro ⟨hdiffer, hm⟩
    cases hkind : m.kind with
    | tree =>
      rw [hkind] at hdiffer hm
      exact .inl ⟨hdiffer, hm⟩
    | dag =>
      rw [hkind] at hdiffer hm
      exact .inr ⟨hdiffer, hm⟩

theorem mismatchesOf_mayDiffer (pair : Pair α) :
    mismatchesOf .mayDiffer pair = (mismatchesOf .mustMatch pair).filter (·.kind != .tree) := by
  simp only [mismatchesOf, List.filter_append]
  split_ifs <;> simp_all

/-- The tree cost of a benchmark is told before its dag cost. -/
theorem pairwise_mismatchesOf (pair : Pair α) :
    (mismatchesOf .mustMatch pair).Pairwise Mismatch.Before := by
  simp only [mismatchesOf, if_pos]
  refine List.pairwise_append.mpr ⟨?_, ?_, ?_⟩
  · split_ifs <;> simp
  · split_ifs <;> simp
  · intro m hm m' hm'
    simp only [List.mem_ite_nil_right, List.mem_singleton] at hm hm'
    obtain ⟨-, rfl⟩ := hm
    obtain ⟨-, rfl⟩ := hm'
    exact .inr ⟨rfl, rfl, rfl⟩

/-! ## All benchmarks -/

section Pairs

variable {pairs : List (Pair α × Ratios α)}
  (h : comparePairs first second (ofExtractor first ms) (ofExtractor second ms)
    (benchmarks (ofExtractor first ms ++ ofExtractor second ms)) = .ok pairs)

include h

/-- Any two results for one benchmark are compared. -/
theorem exists_mem_pairs (h1 : ((ofExtractor first ms).map (·.name)).Nodup)
    (h2 : ((ofExtractor second ms).map (·.name)).Nodup) {a b : Measurement α}
    (ha : a ∈ ofExtractor first ms) (hb : b ∈ ofExtractor second ms) (hname : b.name = a.name) :
    ∃ p ∈ pairs, p.1 = (a, b) := by
  have hlisted : a.name ∈ pairs.map (·.2.name) := by
    rw [map_name_of_comparePairs h]
    exact Measurement.mem_benchmarks_iff.mpr ⟨a, List.mem_append_left _ ha, rfl⟩
  obtain ⟨p, hp, hpname⟩ := List.mem_map.mp hlisted
  obtain ⟨hfirst, hsecond, hname2, hname1⟩ := results_of_mem_comparePairs h hp
  have hpa : p.1.1 = a := List.inj_on_of_nodup_map h1 hfirst ha (hname1.symm.trans hpname)
  have hpb : p.1.2 = b :=
    List.inj_on_of_nodup_map h2 hsecond hb
      (hname2.trans ((hname1.symm.trans hpname).trans hname.symm))
  exact ⟨p, hp, Prod.ext hpa hpb⟩

/-- The benchmarks are compared in the order of their names. -/
theorem pairwise_pairs : pairs.Pairwise fun p q => utf8 p.1.1.name < utf8 q.1.1.name := by
  have hnames : (pairs.map (·.2.name)).Pairwise (· < ·) := by
    rw [map_name_of_comparePairs h]
    exact Ascending.pairwise_names _
  refine (List.pairwise_map.mp hnames).imp_of_mem fun {p q} hp hq hlt => Text.utf8_lt_iff.mpr ?_
  rwa [← (results_of_mem_comparePairs h hp).2.2.2, ← (results_of_mem_comparePairs h hq).2.2.2]

/-- The differing costs are told once each, in order. -/
theorem pairwise_mismatches :
    (pairs.flatMap fun p => mismatchesOf .mustMatch p.1).Pairwise Mismatch.Before := by
  -- Costs of one benchmark are in order among themselves, and those of two benchmarks as the names
  -- are.
  refine List.pairwise_flatMap.mpr
    ⟨fun p _ => pairwise_mismatchesOf p.1, (pairwise_pairs h).imp fun {p q} hlt => ?_⟩
  intro m hm m' hm'
  obtain ⟨-, hm⟩ := mem_mismatchesOf_iff.mp hm
  obtain ⟨-, hm'⟩ := mem_mismatchesOf_iff.mp hm'
  rw [hm, hm']
  exact .inl hlt

theorem mem_mismatches_iff (h1 : ((ofExtractor first ms).map (·.name)).Nodup)
    (h2 : ((ofExtractor second ms).map (·.name)).Nodup) :
    m ∈ (pairs.flatMap fun p => mismatchesOf .mustMatch p.1) ↔ Differing ms first second m := by
  rw [List.mem_flatMap]
  constructor
  · rintro ⟨p, hp, hm⟩
    obtain ⟨hfirst, hsecond, hname, -⟩ := results_of_mem_comparePairs h hp
    obtain ⟨hdiffer, hm⟩ := mem_mismatchesOf_iff.mp hm
    rw [hm]
    exact .mk hfirst hsecond hname hdiffer
  · rintro ⟨hfirst, hsecond, hname, hdiffer⟩
    obtain ⟨p, hp, hpair⟩ := exists_mem_pairs h h1 h2 hfirst hsecond hname
    refine ⟨p, hp, mem_mismatchesOf_iff.mpr ?_⟩
    rw [hpair]
    exact ⟨hdiffer, rfl⟩

end Pairs

/-! ## Both policies -/

variable [Elementary α] {method : QuantileMethod}

theorem ofPairs_mayDiffer (pairs : List (Pair α × Ratios α)) :
    Summary.ofPairs ⟨.mayDiffer, method⟩ first second pairs =
      (Summary.ofPairs ⟨.mustMatch, method⟩ first second pairs).map Summary.withoutTree := by
  have hmismatches : (pairs.flatMap fun p => mismatchesOf .mayDiffer p.1) =
      (pairs.flatMap fun p => mismatchesOf .mustMatch p.1).filter (·.kind != .tree) := by
    rw [List.filter_flatMap]
    exact List.flatMap_congr fun p _ => mismatchesOf_mayDiffer p.1
  unfold Summary.ofPairs
  by_cases hempty : pairs.isEmpty = true
  · rw [if_pos hempty, if_pos hempty]
    rfl
  · rw [if_neg hempty, if_neg hempty]
    show _ = Summary.withoutTree <$> _
    simp only [map_bind, map_pure, hmismatches]
    rfl

theorem summarize_mayDiffer (method : QuantileMethod) (ms : List (Measurement α))
    (first second : String) :
    summarize ⟨.mayDiffer, method⟩ ms first second =
      (summarize ⟨.mustMatch, method⟩ ms first second).map Summary.withoutTree := by
  -- Nothing before the summary reads the policy, so that the change is pushed through the steps to
  -- the last one.
  unfold summarize
  show _ = Summary.withoutTree <$> _
  simp only [map_bind]
  simp only [ofPairs_mayDiffer]
  rfl

/-- Under both policies a comparison fails alike, or it has one summary, less the differing tree
costs where these are expected. -/
theorem both_policies (method : QuantileMethod) (ms : List (Measurement α))
    (first second : String) :
    (∃ fault, summarize ⟨.mustMatch, method⟩ ms first second = .error fault ∧
        summarize ⟨.mayDiffer, method⟩ ms first second = .error fault) ∨
      ∃ s, summarize ⟨.mustMatch, method⟩ ms first second = .ok s ∧
        summarize ⟨.mayDiffer, method⟩ ms first second = .ok s.withoutTree := by
  rw [summarize_mayDiffer]
  cases summarize ⟨.mustMatch, method⟩ ms first second with
  | error fault => exact .inl ⟨fault, rfl, rfl⟩
  | ok s => exact .inr ⟨s, rfl, rfl⟩

theorem mismatches_of_summarize {s : Summary α}
    (hs : summarize ⟨.mustMatch, method⟩ ms first second = .ok s) :
    s.mismatches.Pairwise Mismatch.Before ∧ ∀ m, m ∈ s.mismatches ↔
      Differing ms first second m := by
  obtain ⟨h1, h2, pairs, hpairs, hsummary⟩ := summarize_eq_ok_iff.mp hs
  rw [(summary_of_ofPairs hsummary).mismatches]
  exact ⟨pairwise_mismatches hpairs, fun m => mem_mismatches_iff hpairs h1 h2⟩

end Generic

/-! ## Ratios other than one -/

/-- The ratio of one of the two costs. -/
def Ratios.cost {α : Type} (r : Ratios α) : CostKind → α
  | .tree => r.tree
  | .dag => r.dag

section Exact

variable {ms : List (Measurement Rat)} {first second : String} {pair : Pair Rat} {r : Ratios Rat}

theorem ratio_ne_one_iff (h : ratiosOf first second pair = .ok r) (kind : CostKind) :
    r.cost kind ≠ 1 ↔ (pair.1.cost kind != pair.2.cost kind) = true := by
  obtain ⟨hpos, rfl⟩ := ratiosOf_eq_ok_iff.mp h
  have hne : pair.2.cost kind ≠ 0 := by
    have hcost : ((0 : Nat) : Rat) < pair.2.cost kind := (hpos kind).1
    exact_mod_cast hcost.ne'
  rw [bne_iff_ne, ne_eq, ne_eq, ← div_eq_one_iff_eq hne]
  cases kind with
  | tree => rfl
  | dag => rfl

theorem exists_mismatch_iff [Elementary Rat] {method : QuantileMethod} {s : Summary Rat}
    (hs : summarize ⟨.mustMatch, method⟩ ms first second = .ok s) (name : String)
    (kind : CostKind) :
    (∃ m ∈ s.mismatches, m.name = name ∧ m.kind = kind) ↔
      ∃ r ∈ s.ratios, r.name = name ∧ r.cost kind ≠ 1 := by
  obtain ⟨-, -, pairs, hpairs, hsummary⟩ := summarize_eq_ok_iff.mp hs
  rw [(summary_of_ofPairs hsummary).mismatches, (summary_of_ofPairs hsummary).ratios]
  constructor
  · rintro ⟨m, hm, rfl, rfl⟩
    obtain ⟨p, hp, hm⟩ := List.mem_flatMap.mp hm
    obtain ⟨hdiffer, hm⟩ := mem_mismatchesOf_iff.mp hm
    obtain ⟨-, -, -, hr⟩ := exists_name_of_mem_comparePairs hpairs hp
    refine ⟨p.2, List.mem_map_of_mem hp, ?_, (ratio_ne_one_iff hr m.kind).mpr hdiffer⟩
    rw [hm]
    exact (results_of_mem_comparePairs hpairs hp).2.2.2
  · rintro ⟨r, hr, rfl, hne⟩
    obtain ⟨p, hp, rfl⟩ := List.mem_map.mp hr
    obtain ⟨-, -, -, hratios⟩ := exists_name_of_mem_comparePairs hpairs hp
    have hdiffer := (ratio_ne_one_iff hratios kind).mp hne
    refine ⟨⟨p.1.1.name, kind, p.1.1.cost kind, p.1.2.cost kind⟩, List.mem_flatMap.mpr ⟨p, hp, ?_⟩,
      (results_of_mem_comparePairs hpairs hp).2.2.2.symm, rfl⟩
    exact mem_mismatchesOf_iff.mpr ⟨hdiffer, rfl⟩

end Exact

/-- What is told of differing costs. Whether tree costs must match or may differ makes no difference
to a comparison but for the tree costs that are told: both fail with the same fault, or the
summaries are equal apart from these. All costs that differ are told and nothing else, in order and
with both values, and where division is exact they are those of which the ratio is not one. -/
theorem mismatches_characterized (method : QuantileMethod) (first second : String) :
    (∀ (α : Type) [Scalar α] [Elementary α] (ms : List (Measurement α)),
      (∃ fault, summarize ⟨.mustMatch, method⟩ ms first second = .error fault ∧
          summarize ⟨.mayDiffer, method⟩ ms first second = .error fault) ∨
        ∃ s, summarize ⟨.mustMatch, method⟩ ms first second = .ok s ∧
          summarize ⟨.mayDiffer, method⟩ ms first second = .ok s.withoutTree ∧
          s.mismatches.Pairwise Mismatch.Before ∧ ∀ m, m ∈ s.mismatches ↔
            Differing ms first second m) ∧
    ∀ [Elementary Rat] (ms : List (Measurement Rat)) s,
      summarize ⟨.mustMatch, method⟩ ms first second = .ok s →
      ∀ name kind, (∃ m ∈ s.mismatches, m.name = name ∧ m.kind = kind) ↔
        ∃ r ∈ s.ratios, r.name = name ∧ r.cost kind ≠ 1 := by
  refine ⟨fun α _ _ ms => ?_, fun ms s hs => exists_mismatch_iff hs⟩
  rcases both_policies method ms first second with hfault | ⟨s, hmust, hmay⟩
  · exact .inl hfault
  · exact .inr ⟨s, hmust, hmay, mismatches_of_summarize hmust⟩

/-- Two extractors on two benchmarks: of the first one the dag costs differ, and of the second one
the tree costs. -/
def fourRuns : List (Measurement Rat) :=
  [⟨"b", "ilp", 4, 1, 9, ⟨""⟩, ⟨""⟩⟩, ⟨"a", "ilp", 2, 1, 8, ⟨""⟩, ⟨""⟩⟩,
    ⟨"a", "beam", 2, 3, 7, ⟨""⟩, ⟨""⟩⟩, ⟨"b", "beam", 5, 1, 6, ⟨""⟩, ⟨""⟩⟩]

theorem fourRuns_mismatches :
    let _ : Elementary Rat := ⟨id, id, id⟩
    ∃ s, summarize ⟨.mustMatch, .inclusive⟩ fourRuns "beam" "ilp" = .ok s ∧
      summarize ⟨.mayDiffer, .inclusive⟩ fourRuns "beam" "ilp" = .ok s.withoutTree ∧
      s.mismatches = [⟨"a", .dag, 3, 1⟩, ⟨"b", .tree, 5, 4⟩] ∧ ∃ r ∈ s.ratios, r.name = "b" ∧
        r.cost .tree ≠ 1 := by
  intro _
  have hlist :
      ((summarize ⟨.mustMatch, .inclusive⟩ fourRuns "beam" "ilp").toOption.map (·.mismatches)) =
      some [⟨"a", .dag, 3, 1⟩, ⟨"b", .tree, 5, 4⟩] := by cbv
  obtain ⟨hpolicies, hexact⟩ := mismatches_characterized .inclusive "beam" "ilp"
  obtain ⟨_, hfault, -⟩ | ⟨s, hs, hmay, -, -⟩ := hpolicies Rat fourRuns
  · rw [hfault] at hlist
    cases hlist
  · rw [hs] at hlist
    replace hlist : s.mismatches = [⟨"a", .dag, 3, 1⟩, ⟨"b", .tree, 5, 4⟩] := Option.some.inj hlist
    refine ⟨s, hs, hmay, hlist,
      (hexact fourRuns s hs "b" .tree).mp ⟨⟨"b", .tree, 5, 4⟩, ?_, rfl, rfl⟩⟩
    rw [hlist]
    simp

end ExtractionBench.Comparison
