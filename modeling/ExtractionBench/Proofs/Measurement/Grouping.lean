import Mathlib.Tactic
import ExtractionBench.Measurement.Grouping
import ExtractionBench.Proofs.Files.PathOrder

/-!
# Results by directory

Grouping loses no result and mixes no directories: under each directory, however it is written,
stand just the results whose directory is the same place, in their order.
-/

namespace ExtractionBench.Measurement

variable {α : Type} {ms : List (Measurement α)}

/-- The results in a directory, in order. -/
def inDirectory (d : Path) (ms : List (Measurement α)) : List (Measurement α) :=
  ms.filter fun m => d.same m.directory

theorem mem_inDirectory {d : Path} {m : Measurement α} :
    m ∈ inDirectory d ms ↔ m ∈ ms ∧ d.same m.directory = true :=
  List.mem_filter

theorem byDirectory_concat (ms : List (Measurement α)) (m : Measurement α) :
    byDirectory (ms ++ [m]) =
      Ascending.upsert Path.before m.directory (fun group => group.getD [] ++ [m])
        (byDirectory ms) := by
  unfold byDirectory
  rw [List.foldl_append, List.foldl_cons, List.foldl_nil]

/-- The directories are in strictly ascending order. -/
theorem pairwise_byDirectory (ms : List (Measurement α)) :
    ((byDirectory ms).map (·.1)).Pairwise fun p q => p.before q = true := by
  induction ms using List.reverseRecOn with
  | nil => exact List.Pairwise.nil
  | append_singleton ms m ih =>
    rw [byDirectory_concat]
    exact Ascending.pairwise_keys_upsert Path.weakOrder_before.trans ih

/-- Under a directory stand the results in it, and nothing if there are none. -/
theorem find?_byDirectory (d : Path) (ms : List (Measurement α)) :
    Ascending.find? Path.before d (byDirectory ms) =
      if inDirectory d ms = [] then none else some (inDirectory d ms) := by
  induction ms using List.reverseRecOn generalizing d with
  | nil => rfl
  | append_singleton ms m ih =>
    have hconcat : inDirectory d (ms ++ [m]) = inDirectory d ms ++ if d.same m.directory =
        true then [m] else [] := by
      unfold inDirectory
      rw [List.filter_append, List.filter_singleton, Bool.cond_eq_ite]
    rw [byDirectory_concat, hconcat]
    by_cases hsame : d.same m.directory = true
    · -- The directory may be written differently in the table, so look-ups go by its tie with `d`.
      have htied : Ascending.tied Path.before d m.directory = true :=
        (Path.tied_before _ _).trans hsame
      have hold : (Ascending.find? Path.before d (byDirectory ms)).getD [] = inDirectory d ms := by
        rw [ih d]
        split
        · rename_i hnil
          rw [hnil]
          rfl
        · rfl
      have hne : inDirectory d ms ++ [m] ≠ [] :=
        List.append_ne_nil_of_right_ne_nil _ (List.cons_ne_nil m [])
      rw [Ascending.find?_congr Path.weakOrder_before htied,
        Ascending.find?_upsert_self Path.weakOrder_before (pairwise_byDirectory ms),
        ← Ascending.find?_congr Path.weakOrder_before htied, hold, if_pos hsame, if_neg hne]
    · have hother : Ascending.tied Path.before d m.directory = false :=
        (Path.tied_before _ _).trans (Bool.eq_false_iff.mpr hsame)
      rw [Ascending.find?_upsert_of_not_tied Path.weakOrder_before hother, ih d, if_neg hsame,
        List.append_nil]

/-- A directory goes by the spelling of its first result. -/
theorem head_of_mem_byDirectory {d : Path} {group : List (Measurement α)}
    (h : (d, group) ∈ byDirectory ms) :
    group.head?.map (·.directory) = some d := by
  induction ms using List.reverseRecOn generalizing d group with
  | nil => cases h
  | append_singleton ms m ih =>
    rw [byDirectory_concat] at h
    rcases Ascending.mem_upsert h with hold | hnew | ⟨group', hold, hgroup⟩
    · exact ih hold
    · cases hnew
      rfl
    · have hhead := ih hold
      cases group' with
      | nil => cases hhead
      | cons first others =>
        rw [show group = first :: others ++ [m] from hgroup]
        exact hhead

/-- The groups are the results of each directory, under the spelling of the first of them. -/
theorem mem_byDirectory_iff {d : Path} {group : List (Measurement α)} :
    (d, group) ∈ byDirectory ms ↔
      group = inDirectory d ms ∧ group.head?.map (·.directory) = some d := by
  constructor
  · intro h
    have hfind := Ascending.find?_of_mem Path.weakOrder_before (pairwise_byDirectory ms) h
    rw [find?_byDirectory] at hfind
    split_ifs at hfind
    exact ⟨(Option.some.inj hfind).symm, head_of_mem_byDirectory h⟩
  · rintro ⟨hgroup, hhead⟩
    have hne : inDirectory d ms ≠ [] := by
      rintro hnil
      rw [hgroup, hnil] at hhead
      cases hhead
    have hfind := find?_byDirectory d ms
    rw [if_neg hne, ← hgroup] at hfind
    obtain ⟨d', hd', -⟩ := Ascending.exists_mem_of_find? hfind
    -- The group stands under the spelling of its first result, and so under no other.
    have hsame : d' = d := Option.some.inj ((head_of_mem_byDirectory hd').symm.trans hhead)
    exact hsame ▸ hd'

/-- The results in the directory of a result are a group. -/
theorem exists_group {m : Measurement α} (hm : m ∈ ms) :
    ∃ d, (d, inDirectory m.directory ms) ∈ byDirectory ms := by
  have hne : inDirectory m.directory ms ≠ [] :=
    List.ne_nil_of_mem (mem_inDirectory.mpr ⟨hm, by simp [Path.same]⟩)
  have hfind := find?_byDirectory m.directory ms
  rw [if_neg hne] at hfind
  obtain ⟨d, hd, -⟩ := Ascending.exists_mem_of_find? hfind
  exact ⟨d, hd⟩

theorem flatMap_byDirectory_perm (ms : List (Measurement α)) :
    ((byDirectory ms).flatMap (·.2)).Perm ms := by
  have hbags : ((byDirectory ms).map fun group => (group.2 : Multiset (Measurement α))).sum =
      (ms : Multiset _) := by
    induction ms using List.reverseRecOn with
    | nil => rfl
    | append_singleton ms m ih =>
      rw [byDirectory_concat,
        Ascending.sum_map_upsert _ (([m] : List _) : Multiset (Measurement α)), ih,
        Multiset.coe_add]
      · rfl
      · intro group _
        exact (Multiset.coe_add group.2 [m]).symm
  refine Multiset.coe_eq_coe.mp ?_
  rw [← hbags, List.flatMap, ← Multiset.coe_join, Multiset.join, Multiset.sum_coe, List.map_map]
  rfl

/-! ## A partition -/

/-- Groups take results apart by directory, under any of its spellings: the results of each, in
their order, go by the spelling of the first of them. -/
structure Parted (ms : List (Measurement α))
    (groups : List (Path × List (Measurement α))) : Prop where
  together : ∀ m ∈ ms, ∀ m' ∈ ms,
    (∃ group ∈ groups, m ∈ group.2 ∧ m' ∈ group.2) ↔ m.directory.same m'.directory = true
  inOrder : ∀ group ∈ groups, group.2 = ms.filter fun m => group.1.same m.directory
  spelling : ∀ group ∈ groups, group.2.head?.map (·.directory) = some group.1
  ascending : (groups.map (·.1)).Pairwise fun d d' => d.before d' = true
  /-- No result is lost and none is taken twice. -/
  whole : (groups.flatMap (·.2)).Perm ms
  sizes : (groups.map (·.2.length)).sum = ms.length

theorem same_of_group {m m' : Measurement α} {group : Path × List (Measurement α)}
    (hgroup : group ∈ byDirectory ms) (hm : m ∈ group.2) (hm' : m' ∈ group.2) :
    m.directory.same m'.directory = true := by
  obtain ⟨d, results⟩ := group
  obtain ⟨rfl, -⟩ := mem_byDirectory_iff.mp hgroup
  obtain ⟨-, hsame⟩ := mem_inDirectory.mp hm
  obtain ⟨-, hsame'⟩ := mem_inDirectory.mp hm'
  unfold Path.same at hsame hsame' ⊢
  rw [beq_iff_eq] at hsame hsame' ⊢
  exact hsame.symm.trans hsame'

theorem parted_byDirectory (ms : List (Measurement α)) : Parted ms (byDirectory ms) where
  together := by
    intro m hm m' hm'
    constructor
    · rintro ⟨group, hgroup, hin, hin'⟩
      exact same_of_group hgroup hin hin'
    · intro hsame
      obtain ⟨d, hd⟩ := exists_group hm
      refine ⟨_, hd, mem_inDirectory.mpr ⟨hm, ?_⟩, mem_inDirectory.mpr ⟨hm', hsame⟩⟩
      exact beq_self_eq_true _
  inOrder := fun _ hgroup => (mem_byDirectory_iff.mp hgroup).1
  spelling := fun _ hgroup => (mem_byDirectory_iff.mp hgroup).2
  ascending := pairwise_byDirectory ms
  whole := flatMap_byDirectory_perm ms
  sizes := by
    rw [← (flatMap_byDirectory_perm ms).length_eq, List.length_flatMap]

end ExtractionBench.Measurement
