import Mathlib.Order.Bounds.Basic
import Mathlib.Tactic
import ExtractionBench.Proofs.Measurement.Index

/-!
# Results by their places

Where the results of an extractor for a benchmark stand in a list of all results tells what the
index of that extractor is. There is one if each benchmark has at most one place, and then it finds
what stands there. Otherwise the fault tells of the first place that repeats a benchmark and of the
first place of that benchmark. Results of other extractors in between have no part in it.
-/

namespace ExtractionBench.Measurement

variable {α : Type} {ms front back before after : List (Measurement α)} {m first : Measurement α}
  {extractor name : String} {k : Nat}

/-- The places of an extractor's results for a benchmark. -/
def places (ms : List (Measurement α)) (extractor name : String) : Set Nat :=
  {k | ∃ m, ms[k]? = some m ∧ m.extractor = extractor ∧ m.name = name}

/-- The places of an extractor's results for benchmarks that have an earlier one. -/
def repeats (ms : List (Measurement α)) (extractor : String) : Set Nat :=
  {k | ∃ name, k ∈ places ms extractor name ∧ ∃ i ∈ places ms extractor name, i < k}

/-! ## Places -/

theorem mem_places_append_iff (hk : k < front.length) :
    k ∈ places (front ++ back) extractor name ↔ k ∈ places front extractor name :=
  exists_congr fun m => by rw [List.getElem?_append_left hk]

/-- No benchmark is repeated among the results of an extractor exactly if each has at most one
place. -/
theorem nodup_iff_subsingleton_places :
    ((ofExtractor extractor ms).map (·.name)).Nodup ↔
      ∀ name, (places ms extractor name).Subsingleton := by
  simp only [List.Nodup, List.pairwise_map, ofExtractor, List.pairwise_filter, beq_iff_eq]
  rw [List.pairwise_iff_getElem]
  constructor
  · rintro h name i ⟨m, hi, hm, rfl⟩ j ⟨m', hj, hm', hname⟩
    obtain ⟨hi', rfl⟩ := List.getElem?_eq_some_iff.mp hi
    obtain ⟨hj', rfl⟩ := List.getElem?_eq_some_iff.mp hj
    rcases lt_trichotomy i j with hij | hij | hij
    · exact absurd hname.symm (h i j hi' hj' hij hm hm')
    · exact hij
    · exact absurd hname (h j i hj' hi' hij hm' hm)
  · intro h i j hi hj hij hm hm' hname
    have hplace : j ∈ places ms extractor ms[i].name :=
      ⟨_, List.getElem?_eq_getElem hj, hm', hname.symm⟩
    exact hij.ne (h _ ⟨_, List.getElem?_eq_getElem hi, hm, rfl⟩ hplace)

/-! ## Looking up -/

theorem find?_ofExtractor_iff_places (h : ∀ name, (places ms extractor name).Subsingleton) :
    find? name (ofExtractor extractor ms) = some m ↔
      ∃ k, ms[k]? = some m ∧ places ms extractor name = {k} := by
  rw [find?_ofExtractor_eq_some_iff (nodup_iff_subsingleton_places.mpr h)]
  constructor
  · rintro ⟨hmem, hm⟩
    obtain ⟨k, hk⟩ := List.mem_iff_getElem?.mp hmem
    exact ⟨k, hk, (h name).eq_singleton_of_mem ⟨m, hk, hm⟩⟩
  · rintro ⟨k, hk, hplaces⟩
    obtain ⟨m', hk', hm'⟩ : k ∈ places ms extractor name := hplaces ▸ rfl
    cases hk.symm.trans hk'
    exact ⟨List.mem_of_getElem? hk, hm'⟩

theorem find?_ofExtractor_eq_none_iff_places :
    find? name (ofExtractor extractor ms) = none ↔ places ms extractor name = ∅ := by
  rw [find?_eq_none_iff, Set.eq_empty_iff_forall_notMem]
  constructor
  · rintro h k ⟨m, hk, hextractor, hname⟩
    exact h m (mem_ofExtractor.mpr ⟨List.mem_of_getElem? hk, hextractor⟩) hname
  · intro h m hm hname
    obtain ⟨hmem, hextractor⟩ := mem_ofExtractor.mp hm
    obtain ⟨k, hk⟩ := List.mem_iff_getElem?.mp hmem
    exact h k ⟨m, hk, hextractor, hname⟩

/-! ## The first repetition -/

theorem exists_split_of_ofExtractor (h : ofExtractor extractor ms = before ++ m :: after) :
    ∃ front back, ms = front ++ m :: back ∧ ofExtractor extractor front = before ∧
      m.extractor = extractor := by
  obtain ⟨early, late, rfl, hearly, hlate⟩ := List.filter_eq_append_iff.mp h
  obtain ⟨between, back, rfl, hbetween, hm, -⟩ := List.filter_eq_cons_iff.mp hlate
  refine ⟨early ++ between, back, by simp, ?_, by simpa using hm⟩
  rw [ofExtractor, List.filter_append, hearly, List.filter_eq_nil_iff.mpr hbetween, List.append_nil]

/-- In front of the first repetition each benchmark has one place, so it is known where both results
stand. -/
theorem FirstRepeat.exists_places {fault : Fault α} (h : FirstRepeat extractor ms fault) :
    ∃ i j first second, ms[i]? = some first ∧ ms[j]? = some second ∧
      IsLeast (repeats ms extractor) j ∧
      IsLeast (places ms extractor second.name) i ∧
      fault = .repeated second.name extractor first.file second.file := by
  cases h with
  | @mk before after first m hsplit hnodup hfirst hname =>
    obtain ⟨front, back, rfl, rfl, hextractor⟩ := exists_split_of_ofExtractor hsplit
    obtain ⟨hmem, hfirstExtractor⟩ := mem_ofExtractor.mp hfirst
    obtain ⟨i, hi⟩ := List.mem_iff_getElem?.mp hmem
    obtain ⟨hlt, -⟩ := List.getElem?_eq_some_iff.mp hi
    have honce := nodup_iff_subsingleton_places.mp hnodup
    have hplace : i ∈ places front extractor m.name := ⟨first, hi, hfirstExtractor, hname⟩
    have hplace' : i ∈ places (front ++ m :: back) extractor m.name :=
      (mem_places_append_iff hlt).mpr hplace
    have hsecond : (front ++ m :: back)[front.length]? = some m := by simp
    refine ⟨i, front.length, first, m, ?_, hsecond, ⟨?_, ?_⟩, ⟨hplace', ?_⟩, rfl⟩
    · rw [List.getElem?_append_left hlt, hi]
    · exact ⟨m.name, ⟨m, hsecond, hextractor, rfl⟩, i, hplace', hlt⟩
    · rintro k ⟨name, hk, i', hi', hik⟩
      by_contra hshort
      have hlater := (mem_places_append_iff (by omega)).mp hk
      have hearlier := (mem_places_append_iff (by omega)).mp hi'
      exact hik.ne (honce name hearlier hlater)
    · intro k hk
      by_contra hshort
      have hearlier := (mem_places_append_iff (by omega)).mp hk
      exact hshort (honce m.name hplace hearlier).le

/-- The index of an extractor, told by the places of its results. There is one exactly if no
benchmark has two, and then looking up a benchmark finds the one result that there is, or nothing.
Otherwise the fault tells of the first result of all for a benchmark that has an earlier one, and of
the first result for that benchmark. -/
theorem index_by_places (ms : List (Measurement α)) (extractor : String) :
    ((∃ results, index ms extractor = .ok results) ↔
      ∀ name, (places ms extractor name).Subsingleton) ∧
    (∀ results, index ms extractor = .ok results → ∀ name,
      (∀ m, find? name results = some m ↔ ∃ k, ms[k]? = some m ∧ places ms extractor name = {k}) ∧
      (find? name results = none ↔ places ms extractor name = ∅)) ∧
    ((¬ ∀ name, (places ms extractor name).Subsingleton) →
      ∃ i j first second, ms[i]? = some first ∧ ms[j]? = some second ∧
        IsLeast (repeats ms extractor) j ∧
        IsLeast (places ms extractor second.name) i ∧
        index ms extractor = .error (.repeated second.name extractor first.file second.file)) := by
  refine ⟨?_, fun results hindex name => ?_, fun hrepeated => ?_⟩
  · simp only [index_eq_ok_iff, nodup_iff_subsingleton_places, exists_and_left, exists_eq, and_true]
  · obtain ⟨hnodup, rfl⟩ := index_eq_ok_iff.mp hindex
    exact ⟨fun m => find?_ofExtractor_iff_places (nodup_iff_subsingleton_places.mp hnodup),
      find?_ofExtractor_eq_none_iff_places⟩
  · obtain ⟨fault, hfault⟩ := exists_firstRepeat (mt nodup_iff_subsingleton_places.mp hrepeated)
    obtain ⟨i, j, first, second, hi, hj, hleast, hfirst, rfl⟩ := hfault.exists_places
    exact ⟨i, j, first, second, hi, hj, hleast, hfirst, index_eq_error_iff.mpr hfault⟩

end ExtractionBench.Measurement
