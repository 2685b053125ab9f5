import Mathlib.Tactic
import ExtractionBench.Measurement.Index
import ExtractionBench.Proofs.Ascending

/-!
# Results by extractor and benchmark

The results of an extractor can be looked up by benchmark exactly if no benchmark occurs twice among
them, and then the results are all there, in order.
-/

namespace ExtractionBench.Measurement

variable {α : Type} {ms known rest : List (Measurement α)} {extractor name : String}

theorem mem_ofExtractor {m : Measurement α} :
    m ∈ ofExtractor extractor ms ↔ m ∈ ms ∧ m.extractor = extractor := by
  unfold ofExtractor
  rw [List.mem_filter, beq_iff_eq]

theorem mem_extractors_iff {e : String} : e ∈ extractors ms ↔ ∃ m ∈ ms, m.extractor = e := by
  unfold extractors
  rw [Ascending.mem_names_iff, List.mem_map]

theorem mem_benchmarks_iff : name ∈ benchmarks ms ↔ ∃ m ∈ ms, m.name = name := by
  unfold benchmarks
  rw [Ascending.mem_names_iff, List.mem_map]

/-- Some of the results for distinct benchmarks are all of them if each benchmark is among
theirs. -/
theorem perm_of_names {chosen all : List (Measurement α)} (hchosen : (chosen.map (·.name)).Nodup)
    (hall : (all.map (·.name)).Nodup) (hsub : ∀ m ∈ chosen, m ∈ all)
    (hnames : ∀ m ∈ all, m.name ∈ chosen.map (·.name)) : chosen.Perm all := by
  refine (List.perm_ext_iff_of_nodup (.of_map _ hchosen) (.of_map _ hall)).mpr fun m =>
    ⟨hsub m, fun hm => ?_⟩
  obtain ⟨m', hm', hname⟩ := List.mem_map.mp (hnames m hm)
  exact List.inj_on_of_nodup_map hall (hsub m' hm') hm hname ▸ hm'

/-- Nothing is found for a benchmark exactly if no result is for it. -/
theorem find?_eq_none_iff : find? name ms = none ↔ ∀ m ∈ ms, m.name ≠ name := by
  simp [find?, List.find?_eq_none]

/-- What is found for a benchmark is a result for it. -/
theorem mem_of_find? {m : Measurement α} (h : find? name ms = some m) : m ∈ ms ∧ m.name = name :=
  ⟨List.mem_of_find?_eq_some h, by simpa using List.find?_some h⟩

/-- With one result for each benchmark, that result is found. -/
theorem find?_eq_some_iff (hnodup : (ms.map (·.name)).Nodup) {m : Measurement α} :
    find? name ms = some m ↔ m ∈ ms ∧ m.name = name := by
  refine ⟨mem_of_find?, ?_⟩
  rintro ⟨hm, rfl⟩
  cases hfind : find? m.name ms with
  | none => exact absurd rfl (find?_eq_none_iff.mp hfind m hm)
  | some m' =>
    obtain ⟨hm', hname⟩ := mem_of_find? hfind
    rw [List.inj_on_of_nodup_map hnodup hm' hm hname]

/-- With one result of an extractor for each benchmark, that result is found among its results. -/
theorem find?_ofExtractor_eq_some_iff (hnodup : ((ofExtractor extractor ms).map (·.name)).Nodup)
    {m : Measurement α} :
    find? name (ofExtractor extractor ms) = some m ↔
      m ∈ ms ∧ m.extractor = extractor ∧ m.name = name := by
  rw [find?_eq_some_iff hnodup, mem_ofExtractor, and_assoc]

/-- Results are added as long as no benchmark is known already or repeated. -/
theorem addEach_eq_ok_iff {results : List (Measurement α)} :
    addEach extractor known rest = .ok results ↔
      (rest.map (·.name)).Nodup ∧ (∀ m ∈ rest, find? m.name known = none) ∧
        results = known ++ rest := by
  induction rest generalizing known with
  | nil => simp [addEach, eq_comm]
  | cons m rest ih =>
    unfold addEach
    cases hfind : find? m.name known with
    | some first =>
      refine iff_of_false (by simp) fun h => ?_
      have hnone := h.2.1 m List.mem_cons_self
      rw [hfind] at hnone
      cases hnone
    | none =>
      show addEach extractor (known ++ [m]) rest = .ok results ↔ _
      rw [ih, List.map_cons, List.nodup_cons, List.append_assoc, List.singleton_append]
      have hknown : (∀ x ∈ rest, find? x.name (known ++ [m]) = none) ↔
          m.name ∉ rest.map (·.name) ∧ ∀ x ∈ rest, find? x.name known = none := by
        simp only [find?_eq_none_iff, List.mem_append, List.mem_singleton, List.mem_map]
        constructor
        · intro h
          refine ⟨?_, fun x hx y hy => h x hx y (.inl hy)⟩
          rintro ⟨x, hx, hxm⟩
          exact h x hx m (.inr rfl) hxm.symm
        · rintro ⟨hm, h⟩ x hx y (hy | rfl)
          · exact h x hx y hy
          · exact fun hxy => hm ⟨x, hx, hxy.symm⟩
      rw [hknown, List.forall_mem_cons]
      constructor
      · rintro ⟨hnodup, ⟨hm, hrest⟩, hres⟩
        exact ⟨⟨hm, hnodup⟩, ⟨hfind, hrest⟩, hres⟩
      · rintro ⟨⟨hm, hnodup⟩, ⟨-, hrest⟩, hres⟩
        exact ⟨hnodup, ⟨hm, hrest⟩, hres⟩

/-- The only thing that can go wrong is a repeated benchmark, and what is told of are two results
for it, the earlier one first. -/
theorem exists_repeated_of_addEach {fault : Fault α}
    (h : addEach extractor known rest = .error fault) :
    ∃ m m', [m, m'].Sublist (known ++ rest) ∧ m'.name = m.name ∧
      fault = .repeated m.name extractor m.file m'.file := by
  induction rest generalizing known with
  | nil => cases h
  | cons m rest ih =>
    unfold addEach at h
    cases hfind : find? m.name known with
    | some first =>
      rw [hfind] at h
      cases h
      obtain ⟨hmem, hname⟩ := mem_of_find? hfind
      have hsub : ([first] ++ [m]).Sublist (known ++ m :: rest) :=
        (List.singleton_sublist.mpr hmem).append (List.singleton_sublist.mpr List.mem_cons_self)
      exact ⟨first, m, hsub, hname.symm, by rw [hname]⟩
    | none =>
      rw [hfind] at h
      have hstep := ih h
      rwa [List.append_assoc] at hstep

/-- An extractor's results can be looked up exactly if no benchmark occurs twice among them. -/
theorem index_eq_ok_iff {results : List (Measurement α)} :
    index ms extractor = .ok results ↔
      ((ofExtractor extractor ms).map (·.name)).Nodup ∧ results = ofExtractor extractor ms := by
  unfold index
  rw [addEach_eq_ok_iff]
  simp [find?]

theorem exists_repeated_of_index {fault : Fault α} (h : index ms extractor = .error fault) :
    ∃ m m', [m, m'].Sublist (ofExtractor extractor ms) ∧ m'.name = m.name ∧
      fault = .repeated m.name extractor m.file m'.file := by
  have hadd := exists_repeated_of_addEach h
  rwa [List.nil_append] at hadd

/-! ## The first repetition -/

theorem addEach_cons_of_some {m first : Measurement α} (h : find? m.name known = some first) :
    addEach extractor known (m :: rest) =
      .error (.repeated m.name extractor first.file m.file) := by
  rw [addEach, h]

theorem addEach_cons_of_none {m : Measurement α} (h : find? m.name known = none) :
    addEach extractor known (m :: rest) = addEach extractor (known ++ [m]) rest := by
  rw [addEach, h]

/-- Adding stops at the first result for a benchmark that is known by then. -/
theorem addEach_eq_error_iff {fault : Fault α} :
    addEach extractor known rest = .error fault ↔
      ∃ before m after found first, rest = before ++ m :: after ∧
        addEach extractor known before = .ok found ∧
        find? m.name found = some first ∧ fault = .repeated m.name extractor first.file m.file := by
  induction rest generalizing known with
  | nil => simp [addEach]
  | cons x rest ih =>
    cases hfind : find? x.name known with
    | some first =>
      rw [addEach_cons_of_some hfind]
      constructor
      · intro h
        cases h
        exact ⟨[], x, rest, known, first, rfl, rfl, hfind, rfl⟩
      · rintro ⟨before, m, after, found, first', heq, hbefore, hfirst, rfl⟩
        cases before with
        | nil =>
          cases heq
          cases hbefore
          rw [hfind] at hfirst
          cases hfirst
          rfl
        | cons y before =>
          cases heq
          rw [addEach_cons_of_some hfind] at hbefore
          cases hbefore
    | none =>
      rw [addEach_cons_of_none hfind, ih]
      constructor
      · rintro ⟨before, m, after, found, first, rfl, hbefore, hfirst, hfault⟩
        exact ⟨x :: before, m, after, found, first, rfl, addEach_cons_of_none hfind ▸ hbefore,
          hfirst, hfault⟩
      · rintro ⟨before, m, after, found, first, heq, hbefore, hfirst, hfault⟩
        cases before with
        | nil =>
          cases heq
          cases hbefore
          rw [hfind] at hfirst
          cases hfirst
        | cons y before =>
          cases heq
          rw [addEach_cons_of_none hfind] at hbefore
          exact ⟨before, m, after, found, first, rfl, hbefore, hfirst, hfault⟩

/-- What is told of repeated results of an extractor: of the first one for a benchmark that an
earlier one is for, together with that one. -/
inductive FirstRepeat (extractor : String) (ms : List (Measurement α)) : Fault α → Prop where
  | mk {before after : List (Measurement α)} {first m : Measurement α}
      (hsplit : ofExtractor extractor ms = before ++ m :: after)
      (hnodup : (before.map (·.name)).Nodup)
      (hfirst : first ∈ before) (hname : first.name = m.name) :
      FirstRepeat extractor ms (.repeated m.name extractor first.file m.file)

theorem index_eq_error_iff {fault : Fault α} :
    index ms extractor = .error fault ↔ FirstRepeat extractor ms fault := by
  unfold index
  rw [addEach_eq_error_iff]
  constructor
  · rintro ⟨before, m, after, found, first, hsplit, hbefore, hfirst, rfl⟩
    obtain ⟨hnodup, -, rfl⟩ := addEach_eq_ok_iff.mp hbefore
    obtain ⟨hmem, hname⟩ := mem_of_find? hfirst
    exact .mk hsplit hnodup hmem hname
  · rintro ⟨hsplit, hnodup, hfirst, hname⟩
    refine ⟨_, _, _, _, _, hsplit, addEach_eq_ok_iff.mpr ⟨hnodup, by simp [find?], rfl⟩, ?_, rfl⟩
    exact (find?_eq_some_iff hnodup).mpr ⟨hfirst, hname⟩

theorem exists_firstRepeat (h : ¬ ((ofExtractor extractor ms).map (·.name)).Nodup) :
    ∃ fault, FirstRepeat extractor ms fault := by
  cases hindex : index ms extractor with
  | ok results => exact absurd (index_eq_ok_iff.mp hindex).1 h
  | error fault => exact ⟨fault, index_eq_error_iff.mp hindex⟩

/-- No result is repeated exactly if none is among those of each extractor. -/
theorem nodup_iff_forall_ofExtractor :
    (ms.map fun m => (m.name, m.extractor)).Nodup ↔
      ∀ e ∈ extractors ms, ((ofExtractor e ms).map (·.name)).Nodup := by
  simp only [List.Nodup, List.pairwise_map, ofExtractor, List.pairwise_filter, beq_iff_eq]
  constructor
  · intro h e _
    refine h.imp fun {m m'} hne hm hm' hname => hne ?_
    rw [hname, hm, hm']
  · intro h
    refine List.pairwise_iff_forall_sublist.mpr fun {m m'} hsub heq => ?_
    obtain ⟨hname, hextractor⟩ := Prod.mk.inj heq
    have hmem : m ∈ ms := hsub.subset List.mem_cons_self
    have hpair := List.pairwise_iff_forall_sublist.mp
      (h m.extractor (mem_extractors_iff.mpr ⟨m, hmem, rfl⟩)) hsub
    exact hpair rfl hextractor.symm hname

end ExtractionBench.Measurement
