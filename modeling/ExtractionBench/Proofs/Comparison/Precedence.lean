import Mathlib.Tactic
import ExtractionBench.Proofs.Comparison.Reversal
import ExtractionBench.Proofs.Text.ByteOrder

/-!
# Which fault stops a comparison

Repeated results come first, those of the first extractor before those of the second. Then the
benchmarks of both extractors are taken one by one in the order of their names, and of each first
its two results are looked up, then its tree costs are divided, then its dag costs. So of all that
may be wrong one fault is told, and it is known which.
-/

namespace ExtractionBench.Comparison

open Measurement (Covers FirstRepeat ofExtractor benchmarks)
open Text (utf8)

variable {α : Type} {ms : List (Measurement α)} {e first second name : String} {kind : CostKind}
  {fault : Fault α}

/-! ## One benchmark -/

/-- One of two extractors has a result for a benchmark. -/
def Named (ms : List (Measurement α)) (first second name : String) : Prop :=
  Covers ms first name ∨ Covers ms second name

/-- Without a result of the first extractor this is told, and only then one of the second. -/
theorem pairFor_eq_error_iff :
    pairFor first second (ofExtractor first ms) (ofExtractor second ms) name = .error fault ↔
      (¬ Covers ms first name ∧ fault = .missing name first second) ∨
        Covers ms first name ∧ ¬ Covers ms second name ∧ fault = .missing name second first := by
  simp only [← Measurement.exists_find?_ofExtractor_iff]
  unfold pairFor
  cases Measurement.find? name (ofExtractor first ms) with
  | none => simp [eq_comm]
  | some a =>
    cases Measurement.find? name (ofExtractor second ms) with
    | none => simp [eq_comm]
    | some b => simp

variable [Scalar α]

/-- A cost of an extractor is positive for a benchmark. -/
def Positive (ms : List (Measurement α)) (e name : String) (kind : CostKind) : Prop :=
  ∀ m ∈ ms, m.extractor = e → m.name = name → ((0 : Nat) : α) < m.cost kind

/-- Only one of two extractors has a result for a benchmark, or a cost under either of them is not
positive. -/
def Flawed (ms : List (Measurement α)) (first second name : String) : Prop :=
  ¬ (Covers ms first name ↔ Covers ms second name) ∨
    ∃ kind, ¬ Positive ms first name kind ∨ ¬ Positive ms second name kind

/-- What is told of a cost that is not positive: that of the second extractor, and if it is positive
that of the first one. -/
inductive ZeroCost (ms : List (Measurement α)) (first second name : String) (kind : CostKind) :
    Fault α → Prop where
  | second (h : ¬ Positive ms second name kind) :
      ZeroCost ms first second name kind (.zeroCost name second kind)
  | first (hsecond : Positive ms second name kind) (h : ¬ Positive ms first name kind) :
      ZeroCost ms first second name kind (.zeroCost name first kind)

/-- What is told of a benchmark that two extractors cannot be compared on. A fault counts only where
those above it do not hold. -/
inductive Told (ms : List (Measurement α)) (first second name : String) : Fault α → Prop where
  | lacksFirst (h : ¬ Covers ms first name) : Told ms first second name (.missing name first second)
  | lacksSecond (hfirst : Covers ms first name) (h : ¬ Covers ms second name) :
      Told ms first second name (.missing name second first)
  | tree {fault : Fault α} (hfirst : Covers ms first name) (hsecond : Covers ms second name)
      (h : ZeroCost ms first second name .tree fault) : Told ms first second name fault
  | dag {fault : Fault α} (hfirst : Covers ms first name) (hsecond : Covers ms second name)
      (htree : Positive ms first name .tree ∧ Positive ms second name .tree)
      (h : ZeroCost ms first second name .dag fault) : Told ms first second name fault

/-- A cost is told of only if it is not positive under one of the two extractors. -/
theorem ZeroCost.not_positive (h : ZeroCost ms first second name kind fault) :
    ¬ Positive ms first name kind ∨ ¬ Positive ms second name kind := by
  cases h with
  | second h => exact .inr h
  | first _ h => exact .inl h

/-- Only flawed benchmarks are told of. -/
theorem Told.flawed (h : Told ms first second name fault) (hnamed : Named ms first second name) :
    Flawed ms first second name := by
  cases h with
  | lacksFirst h => exact .inl fun hiff => h (hnamed.elim id hiff.mpr)
  | lacksSecond hfirst h => exact .inl fun hiff => h (hiff.mp hfirst)
  | tree _ _ h => exact .inr ⟨.tree, h.not_positive⟩
  | dag _ _ _ h => exact .inr ⟨.dag, h.not_positive⟩

/-- The results of two extractors for a benchmark, with their ratios. -/
def compareOn (first second : String) (ofFirst ofSecond : List (Measurement α)) (name : String) :
    Except (Fault α) (Pair α × Ratios α) := do
  let pair ← pairFor first second ofFirst ofSecond name
  let ratios ← ratiosOf first second pair
  return (pair, ratios)

theorem comparePairs_eq_mapM {ofFirst ofSecond : List (Measurement α)} {names : List String} :
    comparePairs first second ofFirst ofSecond names =
      names.mapM (compareOn first second ofFirst ofSecond) := rfl

/-- Without repetitions a cost is positive if that of the result found is. -/
theorem positive_iff (hnodup : ((ofExtractor e ms).map (·.name)).Nodup) {m : Measurement α}
    (hm : Measurement.find? name (ofExtractor e ms) = some m) :
    Positive ms e name kind ↔ ((0 : Nat) : α) < m.cost kind := by
  constructor
  · intro h
    obtain ⟨hmem, he, hname⟩ := (Measurement.find?_ofExtractor_eq_some_iff hnodup).mp hm
    exact h m hmem he hname
  · intro h m' hmem he hname
    have hm' := (Measurement.find?_ofExtractor_eq_some_iff hnodup).mpr ⟨hmem, he, hname⟩
    cases Option.some.inj (hm.symm.trans hm')
    exact h

section Results

variable (h1 : ((ofExtractor first ms).map (·.name)).Nodup)
  (h2 : ((ofExtractor second ms).map (·.name)).Nodup)
  {a b : Measurement α} (ha : Measurement.find? name (ofExtractor first ms) = some a)
  (hb : Measurement.find? name (ofExtractor second ms) = some b)

include h1 h2 ha hb

/-- A ratio is refused with the cost that is not positive, the divisor first. -/
theorem costRatio_eq_error_iff :
    costRatio first second kind (a, b) = .error fault ↔
      ZeroCost ms first second name kind fault := by
  have hfirst : Positive ms first name kind ↔ ((0 : Nat) : α) < a.cost kind := positive_iff h1 ha
  have hsecond : Positive ms second name kind ↔ ((0 : Nat) : α) < b.cost kind := positive_iff h2 hb
  obtain ⟨-, -, rfl⟩ := (Measurement.find?_ofExtractor_eq_some_iff h1).mp ha
  simp only [costRatio]
  constructor
  · intro h
    split_ifs at h with hpos2 hpos1
    · cases h
      exact .first (hsecond.mpr hpos2) (mt hfirst.mp hpos1)
    · cases h
      exact .second (mt hsecond.mp hpos2)
  · intro h
    cases h with
    | second hzero => rw [if_pos (mt hsecond.mpr hzero)]
    | first hpos hzero => rw [if_neg (not_not.mpr (hsecond.mp hpos)), if_pos (mt hfirst.mpr hzero)]

/-- There is a ratio exactly if both costs are positive. -/
theorem exists_costRatio_iff :
    (∃ q, costRatio first second kind (a, b) = .ok q) ↔
      Positive ms first name kind ∧ Positive ms second name kind := by
  simp only [costRatio_eq_ok_iff, exists_and_left, exists_eq, and_true]
  rw [positive_iff h1 ha, positive_iff h2 hb, and_comm]
  rfl

/-- Of the two ratios that of the tree costs is refused first. -/
theorem ratiosOf_eq_error_iff :
    ratiosOf first second (a, b) = .error fault ↔
      ZeroCost ms first second name .tree fault ∨
        (Positive ms first name .tree ∧ Positive ms second name .tree) ∧
        ZeroCost ms first second name .dag fault := by
  unfold ratiosOf
  rw [bind_eq_error_iff, costRatio_eq_error_iff h1 h2 ha hb, ← exists_costRatio_iff h1 h2 ha hb]
  refine or_congr_right ⟨?_, ?_⟩
  · rintro ⟨q, hq, hrest⟩
    exact ⟨⟨q, hq⟩, (costRatio_eq_error_iff h1 h2 ha hb).mp (bind_pure_eq_error_iff.mp hrest)⟩
  · rintro ⟨⟨q, hq⟩, hdag⟩
    exact ⟨q, hq, bind_pure_eq_error_iff.mpr ((costRatio_eq_error_iff h1 h2 ha hb).mpr hdag)⟩

/-- There are both ratios exactly if all four costs are positive. -/
theorem exists_ratiosOf_iff :
    (∃ r, ratiosOf first second (a, b) = .ok r) ↔
      ∀ kind, Positive ms first name kind ∧ Positive ms second name kind := by
  simp only [ratiosOf_eq_ok_iff, exists_and_left, exists_eq, and_true]
  refine forall_congr' fun kind => ?_
  rw [positive_iff h1 ha, positive_iff h2 hb, and_comm]
  rfl

end Results

section Benchmark

variable (h1 : ((ofExtractor first ms).map (·.name)).Nodup)
  (h2 : ((ofExtractor second ms).map (·.name)).Nodup)

include h1 h2

/-- A benchmark is refused with what is to be told of it. -/
theorem compareOn_eq_error_iff :
    compareOn first second (ofExtractor first ms) (ofExtractor second ms) name = .error fault ↔
      Told ms first second name fault := by
  unfold compareOn
  rw [bind_eq_error_iff, pairFor_eq_error_iff]
  constructor
  · rintro ((⟨hlacks, rfl⟩ | ⟨hfirst, hlacks, rfl⟩) | ⟨⟨a, b⟩, hpair, hrest⟩)
    · exact .lacksFirst hlacks
    · exact .lacksSecond hfirst hlacks
    · obtain ⟨ha, hb⟩ := pairFor_eq_ok_iff.mp hpair
      have hfirst : Covers ms first name := Measurement.exists_find?_ofExtractor_iff.mp ⟨a, ha⟩
      have hsecond : Covers ms second name := Measurement.exists_find?_ofExtractor_iff.mp ⟨b, hb⟩
      rcases (ratiosOf_eq_error_iff h1 h2 ha hb).mp (bind_pure_eq_error_iff.mp hrest) with
        htree | ⟨hpos, hdag⟩
      · exact .tree hfirst hsecond htree
      · exact .dag hfirst hsecond hpos hdag
  · have hcosts : ∀ {fault}, Covers ms first name → Covers ms second name →
        (ZeroCost ms first second name .tree fault ∨
          (Positive ms first name .tree ∧ Positive ms second name .tree) ∧
            ZeroCost ms first second name .dag fault) →
        ∃ pair, pairFor first second (ofExtractor first ms) (ofExtractor second ms) name =
          .ok pair ∧
          (ratiosOf first second pair >>= fun r => return (pair, r)) = Except.error fault := by
      intro fault hfirst hsecond h
      obtain ⟨a, ha⟩ := Measurement.exists_find?_ofExtractor_iff.mpr hfirst
      obtain ⟨b, hb⟩ := Measurement.exists_find?_ofExtractor_iff.mpr hsecond
      exact ⟨(a, b), pairFor_eq_ok_iff.mpr ⟨ha, hb⟩,
        bind_pure_eq_error_iff.mpr ((ratiosOf_eq_error_iff h1 h2 ha hb).mpr h)⟩
    intro h
    cases h with
    | lacksFirst hlacks => exact .inl (.inl ⟨hlacks, rfl⟩)
    | lacksSecond hfirst hlacks => exact .inl (.inr ⟨hfirst, hlacks, rfl⟩)
    | tree hfirst hsecond htree => exact .inr (hcosts hfirst hsecond (.inl htree))
    | dag hfirst hsecond hpos hdag => exact .inr (hcosts hfirst hsecond (.inr ⟨hpos, hdag⟩))

/-- A benchmark of one of the extractors is compared exactly if it is not flawed. -/
theorem exists_compareOn_iff (hnamed : Named ms first second name) :
    (∃ p, compareOn first second (ofExtractor first ms) (ofExtractor second ms) name = .ok p) ↔
      ¬ Flawed ms first second name := by
  have hboth : ¬ Flawed ms first second name ↔ (Covers ms first name ∧ Covers ms second name) ∧
      ∀ kind, Positive ms first name kind ∧ Positive ms second name kind := by
    rw [Flawed, not_or, not_not, not_exists]
    refine and_congr ⟨fun h => ?_, fun h => iff_of_true h.1 h.2⟩ (forall_congr' fun kind => by
      rw [not_or, not_not, not_not])
    exact hnamed.elim (fun hfirst => ⟨hfirst, h.mp hfirst⟩) fun hsecond => ⟨h.mpr hsecond, hsecond⟩
  rw [hboth]
  unfold compareOn
  constructor
  · rintro ⟨_, h⟩
    obtain ⟨⟨a, b⟩, hpair, hrest⟩ := bind_eq_ok_iff.mp h
    obtain ⟨ha, hb⟩ := pairFor_eq_ok_iff.mp hpair
    obtain ⟨r, hr, -⟩ := bind_eq_ok_iff.mp hrest
    have hfirst : Covers ms first name := Measurement.exists_find?_ofExtractor_iff.mp ⟨a, ha⟩
    have hsecond : Covers ms second name := Measurement.exists_find?_ofExtractor_iff.mp ⟨b, hb⟩
    exact ⟨⟨hfirst, hsecond⟩, (exists_ratiosOf_iff h1 h2 ha hb).mp ⟨r, hr⟩⟩
  · rintro ⟨⟨hfirst, hsecond⟩, hpos⟩
    obtain ⟨a, ha⟩ := Measurement.exists_find?_ofExtractor_iff.mpr hfirst
    obtain ⟨b, hb⟩ := Measurement.exists_find?_ofExtractor_iff.mpr hsecond
    obtain ⟨r, hr⟩ := (exists_ratiosOf_iff h1 h2 ha hb).mpr hpos
    exact ⟨_,
      bind_eq_ok_iff.mpr ⟨_, pairFor_eq_ok_iff.mpr ⟨ha, hb⟩, bind_eq_ok_iff.mpr ⟨r, hr, rfl⟩⟩⟩

end Benchmark

/-! ## All benchmarks -/

/-- A benchmark is the least one, by the bytes of its name, that two extractors cannot be compared
on. -/
structure LeastFlawed (ms : List (Measurement α)) (first second name : String) : Prop where
  named : Named ms first second name
  flawed : Flawed ms first second name
  least : ∀ other, Named ms first second other → utf8 other < utf8 name →
    ¬ Flawed ms first second other

/-- Without repetitions a comparison is refused with what is to be told of the least flawed
benchmark. -/
theorem comparePairs_eq_error_iff (h1 : ((ofExtractor first ms).map (·.name)).Nodup)
    (h2 : ((ofExtractor second ms).map (·.name)).Nodup) :
    comparePairs first second (ofExtractor first ms) (ofExtractor second ms)
        (benchmarks (ofExtractor first ms ++ ofExtractor second ms)) = .error fault ↔
      ∃ name, LeastFlawed ms first second name ∧ Told ms first second name fault := by
  have hascending : (benchmarks (ofExtractor first ms ++ ofExtractor second ms)).Pairwise (· < ·) :=
    Ascending.pairwise_names _
  rw [comparePairs_eq_mapM, mapM_eq_error_iff_of_ascending hascending]
  simp only [mem_benchmarks_append_iff, compareOn_eq_error_iff h1 h2]
  constructor
  · rintro ⟨name, hnamed, hbefore, htold⟩
    refine ⟨name, ⟨hnamed, htold.flawed hnamed, fun other hother hlt => ?_⟩, htold⟩
    exact (exists_compareOn_iff h1 h2 hother).mp (hbefore other hother (Text.utf8_lt_iff.mp hlt))
  · rintro ⟨name, ⟨hnamed, -, hleast⟩, htold⟩
    refine ⟨name, hnamed, fun other hother hlt => ?_, htold⟩
    exact (exists_compareOn_iff h1 h2 hother).mpr (hleast other hother (Text.utf8_lt_iff.mpr hlt))

section Summaries

variable [Elementary Rat] {ms : List (Measurement Rat)} {fault : Fault Rat} {config : RatioConfig}

/-- A repetition of the first extractor is told before anything else. -/
theorem summarize_of_firstRepeat (h : FirstRepeat first ms fault) :
    summarize config ms first second = .error fault :=
  bind_eq_error_iff.mpr (.inl (Measurement.index_eq_error_iff.mpr h))

section Distinct

variable (h1 : ((ofExtractor first ms).map (·.name)).Nodup)

include h1

/-- If the first extractor repeats nothing, a repetition of the second one is told next. -/
theorem summarize_of_firstRepeat_second (h : FirstRepeat second ms fault) :
    summarize config ms first second = .error fault :=
  bind_eq_error_iff.mpr (.inr ⟨_, Measurement.index_eq_ok_iff.mpr ⟨h1, rfl⟩,
    bind_eq_error_iff.mpr (.inl (Measurement.index_eq_error_iff.mpr h))⟩)

variable (h2 : ((ofExtractor second ms).map (·.name)).Nodup)

include h2

/-- Without repetitions a summary is made up from the comparison of all benchmarks. -/
theorem summarize_eq_bind :
    summarize config ms first second =
      comparePairs first second (ofExtractor first ms) (ofExtractor second ms)
          (benchmarks (ofExtractor first ms ++ ofExtractor second ms)) >>=
        Summary.ofPairs config first second := by
  unfold summarize
  rw [Measurement.index_eq_ok_iff.mpr ⟨h1, rfl⟩, Measurement.index_eq_ok_iff.mpr ⟨h2, rfl⟩]
  rfl

/-- Two extractors without any results cannot be compared. -/
theorem summarize_of_no_names (h : ∀ name, ¬ Named ms first second name) :
    summarize config ms first second = .error (.noData (.comparison first second)) := by
  have hnone : benchmarks (ofExtractor first ms ++ ofExtractor second ms) = [] :=
    List.eq_nil_iff_forall_not_mem.mpr fun name hname => h name (mem_benchmarks_append_iff.mp hname)
  rw [summarize_eq_bind h1 h2, hnone]
  rfl

/-- Once all pairs of results are compared nothing can fail any more. -/
theorem exists_ofPairs_of_named (hnamed : ∃ name, Named ms first second name)
    {pairs : List (Pair Rat × Ratios Rat)}
    (h : comparePairs first second (ofExtractor first ms) (ofExtractor second ms)
      (benchmarks (ofExtractor first ms ++ ofExtractor second ms)) = .ok pairs) :
    ∃ s, Summary.ofPairs config first second pairs = .ok s := by
  obtain ⟨name, hname⟩ := hnamed
  have hcovers := ((exists_comparePairs_benchmarks_iff h1 h2).mp ⟨pairs, h⟩).1 name
  have hfirst : Covers ms first name := hname.elim id hcovers.mpr
  obtain ⟨s, hs, -⟩ := exists_ofPairs_of_comparePairs config hfirst.mem_extractors h
  exact ⟨s, hs⟩

/-- Without repetitions a summary is refused with what is to be told of the least flawed
benchmark. -/
theorem summarize_eq_error_iff (hnamed : ∃ name, Named ms first second name) :
    summarize config ms first second = .error fault ↔
      ∃ name, LeastFlawed ms first second name ∧ Told ms first second name fault := by
  rw [summarize_eq_bind h1 h2, bind_eq_error_iff, ← comparePairs_eq_error_iff h1 h2]
  refine or_iff_left ?_
  rintro ⟨pairs, hpairs, herror⟩
  obtain ⟨s, hs⟩ := exists_ofPairs_of_named h1 h2 hnamed hpairs
  rw [hs] at herror
  cases herror

/-- Without repetitions there is a summary exactly if no benchmark is flawed. -/
theorem exists_summarize_iff_forall_not_flawed (hnamed : ∃ name, Named ms first second name) :
    (∃ s, summarize config ms first second = .ok s) ↔
      ∀ name, Named ms first second name → ¬ Flawed ms first second name := by
  have hpairs : (∃ pairs, comparePairs first second (ofExtractor first ms) (ofExtractor second ms)
      (benchmarks (ofExtractor first ms ++ ofExtractor second ms)) = .ok pairs) ↔
        ∀ name, Named ms first second name → ¬ Flawed ms first second name := by
    rw [comparePairs_eq_mapM, exists_mapM_eq_ok_iff]
    simp only [mem_benchmarks_append_iff]
    exact forall₂_congr fun name hname => exists_compareOn_iff h1 h2 hname
  rw [← hpairs, summarize_eq_bind h1 h2]
  constructor
  · rintro ⟨s, hs⟩
    obtain ⟨pairs, hok, -⟩ := bind_eq_ok_iff.mp hs
    exact ⟨pairs, hok⟩
  · rintro ⟨pairs, hok⟩
    obtain ⟨s, hs⟩ := exists_ofPairs_of_named h1 h2 hnamed hok
    exact ⟨s, bind_eq_ok_iff.mpr ⟨pairs, hok, hs⟩⟩

end Distinct

/-- A summary has the ratios of all benchmarks, in the order of their names. -/
theorem map_name_of_summarize {s : Summary Rat} (h : summarize config ms first second = .ok s) :
    s.ratios.map (·.name) = benchmarks (ofExtractor first ms ++ ofExtractor second ms) := by
  obtain ⟨-, -, pairs, hpairs, hs⟩ := summarize_eq_ok_iff.mp h
  rw [(summary_of_ofPairs hs).ratios, List.map_map]
  exact map_name_of_comparePairs hpairs

/-- When two extractors can be compared, and what is told when they cannot. A repetition among the
results of the first extractor comes before one among those of the second. With no results of either
there is nothing to compare. Otherwise the comparison has one entry for each benchmark, in strictly
ascending order of the names, if there is none that the extractors cannot be compared on; and if
there is one, the fault is that of the least one. -/
theorem summarize_characterized (config : RatioConfig) (ms : List (Measurement Rat))
    (first second : String) :
    (¬ ((ofExtractor first ms).map (·.name)).Nodup →
      ∃ fault, FirstRepeat first ms fault ∧ summarize config ms first second = .error fault) ∧
    (((ofExtractor first ms).map (·.name)).Nodup → ¬ ((ofExtractor second ms).map (·.name)).Nodup →
      ∃ fault, FirstRepeat second ms fault ∧ summarize config ms first second = .error fault) ∧
    (((ofExtractor first ms).map (·.name)).Nodup → ((ofExtractor second ms).map (·.name)).Nodup →
      ((∀ name, ¬ Named ms first second name) →
        summarize config ms first second = .error (.noData (.comparison first second))) ∧
      ((∃ name, Named ms first second name) →
        (∀ fault, summarize config ms first second = .error fault ↔
          ∃ name, LeastFlawed ms first second name ∧ Told ms first second name fault) ∧
        ((∃ s, summarize config ms first second = .ok s) ↔
          ∀ name, Named ms first second name → ¬ Flawed ms first second name) ∧
        ∀ s, summarize config ms first second = .ok s →
          (s.ratios.map (·.name)).Pairwise (fun a b => utf8 a < utf8 b) ∧
            ∀ name, name ∈ s.ratios.map (·.name) ↔ Named ms first second name)) := by
  refine ⟨fun hrepeated => ?_, fun h1 hrepeated => ?_,
    fun h1 h2 => ⟨summarize_of_no_names h1 h2, fun hnamed => ?_⟩⟩
  · obtain ⟨fault, hfirst⟩ := Measurement.exists_firstRepeat hrepeated
    exact ⟨fault, hfirst, summarize_of_firstRepeat hfirst⟩
  · obtain ⟨fault, hfirst⟩ := Measurement.exists_firstRepeat hrepeated
    exact ⟨fault, hfirst, summarize_of_firstRepeat_second h1 hfirst⟩
  · refine ⟨fun fault => summarize_eq_error_iff h1 h2 hnamed,
      exists_summarize_iff_forall_not_flawed h1 h2 hnamed, fun s hs => ?_⟩
    rw [map_name_of_summarize hs]
    exact ⟨(Ascending.pairwise_names _).imp Text.utf8_lt_iff.mpr,
      fun name => mem_benchmarks_append_iff⟩

end Summaries

end ExtractionBench.Comparison
