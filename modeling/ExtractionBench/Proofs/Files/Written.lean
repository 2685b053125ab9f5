import Mathlib.Tactic
import ExtractionBench.Proofs.Files.Directory

/-!
# Files that were written

Several files are written one after the other. At each place the last of them counts, so the same
files can be written once more and the tree stays as it is. What a path leads to depends on the
directories alone, and they stay what they are.
-/

namespace ExtractionBench.FileTree

variable {t u : FileTree} {p : Path} {place other target : Place} {entry old new : Entry}
  {content : Content}
  {entries : List (Place × Entry)} {writes : List (Place × Entry)} {parts : List (List Char)}

/-! ## Entries that are put twice -/

/-- What is written later to a place replaces what was written there before. -/
theorem putEntry_putEntry_self (place : Place) (old new : Entry) (entries : List (Place × Entry)) :
    putEntry place new (putEntry place old entries) = putEntry place new entries := by
  induction entries with
  | nil => simp [putEntry]
  | cons e rest ih =>
    obtain ⟨q, e⟩ := e
    by_cases hq : q = place
    · simp [putEntry, hq]
    · simp [putEntry, hq, ih]

/-- Puts at two places can change their order, as long as the first of them adds no place to the
list. -/
theorem putEntry_comm (hne : other ≠ place) (hused : place ∈ entries.map Prod.fst) :
    putEntry other new (putEntry place entry entries) =
      putEntry place entry (putEntry other new entries) := by
  induction entries with
  | nil => cases hused
  | cons e rest ih =>
    obtain ⟨q, e⟩ := e
    by_cases hq : q = place
    · subst hq
      simp [putEntry, hne.symm]
    · have hrest : place ∈ rest.map Prod.fst := by
        rcases List.mem_cons.mp hused with h | h
        · exact absurd h.symm hq
        · exact h
      by_cases ho : q = other
      · subst ho
        simp [putEntry, hq]
      · simp [putEntry, hq, ho, ih hrest]

/-- To write what is there already changes nothing. -/
theorem putEntry_eq_self (h : (entries.find? fun e => e.1 == place) = some (place, entry)) :
    putEntry place entry entries = entries := by
  induction entries with
  | nil => cases h
  | cons e rest ih =>
    obtain ⟨q, e⟩ := e
    by_cases hq : q = place
    · subst hq
      simp only [List.find?_cons, beq_self_eq_true, Option.some.injEq, Prod.mk.injEq, true_and] at h
      simp [putEntry, h]
    · rw [List.find?_cons_of_neg (by simpa using hq)] at h
      simp [putEntry, hq, ih h]

/-- A place that is used stays used, whatever is written elsewhere. -/
theorem mem_putEntry (hused : place ∈ entries.map Prod.fst) :
    place ∈ (putEntry other new entries).map Prod.fst := by
  induction entries with
  | nil => cases hused
  | cons e rest ih =>
    obtain ⟨q, e⟩ := e
    by_cases ho : q = other
    · simpa [putEntry, ho] using hused
    · rcases List.mem_cons.mp hused with h | h
      · simp [putEntry, ho, h]
      · simpa [putEntry, ho] using Or.inr (List.mem_map.mp (ih h))

theorem mem_putEntry_self (place : Place) (entry : Entry) (entries : List (Place × Entry)) :
    place ∈ (putEntry place entry entries).map Prod.fst :=
  List.mem_map.mpr ⟨_, List.mem_of_find?_eq_some (find?_putEntry_self place entry entries), rfl⟩

/-! ## Several entries -/

/-- The tree with some entries put at their places, one after the other. -/
def putAll (t : FileTree) (writes : List (Place × Entry)) : FileTree :=
  writes.foldl (fun t write => t.put write.1 write.2) t

@[simp] theorem putAll_nil (t : FileTree) : t.putAll [] = t := rfl

@[simp] theorem putAll_cons (t : FileTree) (write : Place × Entry) (writes : List (Place × Entry)) :
    t.putAll (write :: writes) = (t.put write.1 write.2).putAll writes := rfl

theorem mem_putAll (hused : place ∈ t.entries.map Prod.fst) :
    place ∈ (t.putAll writes).entries.map Prod.fst := by
  induction writes generalizing t with
  | nil => exact hused
  | cons write writes ih => exact ih (mem_putEntry hused)

/-- Where nothing is written everything stays as it was. -/
theorem find?_putAll_of_not_mem (h : place ∉ writes.map Prod.fst) :
    ((t.putAll writes).entries.find? fun e => e.1 == place) =
      t.entries.find? fun e => e.1 == place := by
  induction writes generalizing t with
  | nil => rfl
  | cons write writes ih =>
    rw [List.map_cons, List.mem_cons, not_or] at h
    rw [putAll_cons, ih h.2]
    exact find?_putEntry_of_ne write.2 t.entries h.1

/-- An entry that is overwritten later might as well not have been put. -/
theorem putAll_put_of_mem (hused : place ∈ t.entries.map Prod.fst)
    (hmem : place ∈ writes.map Prod.fst) :
    (t.put place entry).putAll writes = t.putAll writes := by
  induction writes generalizing t with
  | nil => cases hmem
  | cons write writes ih =>
    obtain ⟨q, new⟩ := write
    rw [putAll_cons, putAll_cons]
    by_cases hq : q = place
    · subst hq
      have hput : (t.put q entry).put q new = t.put q new := by
        simp only [put, putEntry_putEntry_self]
      rw [hput]
    · have hlater : place ∈ writes.map Prod.fst := by
        rcases List.mem_cons.mp hmem with h | h
        · exact absurd h.symm hq
        · exact h
      have hcomm : (t.put place entry).put q new = (t.put q new).put place entry := by
        simp only [put, putEntry_comm hq hused]
      rw [hcomm]
      exact ih (mem_putEntry hused) hlater

/-- Entries that were put can be put once more, and the tree stays as it is. -/
theorem putAll_putAll (t : FileTree) (writes : List (Place × Entry)) :
    (t.putAll writes).putAll writes = t.putAll writes := by
  induction writes generalizing t with
  | nil => rfl
  | cons write writes ih =>
    obtain ⟨place, entry⟩ := write
    rw [putAll_cons, putAll_cons]
    by_cases hmem : place ∈ writes.map Prod.fst
    · -- The entry does not last, so there is no telling it was put again.
      have hused : place ∈ ((t.put place entry).putAll writes).entries.map Prod.fst :=
        mem_putAll (mem_putEntry_self place entry t.entries)
      rw [putAll_put_of_mem hused hmem]
      exact ih (t.put place entry)
    · -- The entry is the last at its place, so it is there already.
      have hthere : (((t.put place entry).putAll writes).entries.find? fun e => e.1 == place) =
          some (place, entry) := by
        rw [find?_putAll_of_not_mem hmem]
        exact find?_putEntry_self place entry t.entries
      have hput : ((t.put place entry).putAll writes).put place entry =
          (t.put place entry).putAll writes := by
        rw [put, putEntry_eq_self hthere]
      rw [hput]
      exact ih (t.put place entry)

/-! ## What paths lead to -/

/-- A step of a path leads on from a directory, under a name that is not too long. -/
theorem follow_cons_eq_ok_iff {segment : List Char} :
    t.follow place (segment :: parts) = .ok target ↔
      t.at? place = some .directory ∧ ¬ nameLimit < (String.ofList segment).utf8ByteSize ∧
        t.follow (step place segment) parts = .ok target := by
  rw [follow]
  split
  · simp [*]
  · simp [*]
  · split
    · simp [*]
    · simp [*]

/-- A file can be written wherever a path leads, unless there is a directory. -/
theorem target_eq_ok_iff :
    t.target p = .ok place ↔ t.resolve p = .ok place ∧ t.at? place ≠ some .directory := by
  rw [FileTree.target]
  split
  · rename_i found hfound
    rw [hfound]
    split_ifs with hdirectory
    · constructor
      · intro h
        cases h
      · rintro ⟨h, hne⟩
        cases h
        exact absurd hdirectory hne
    · constructor
      · intro h
        cases h
        exact ⟨rfl, hdirectory⟩
      · rintro ⟨h, -⟩
        exact h
  · rename_i hmissing
    rw [hmissing]
    split_ifs
    · simp
    · simp
  · rename_i hproblem
    simp [hproblem]

/-- A text is read from the file that a path leads to, if its bytes are one. -/
theorem readText_eq_ok_iff {contents : String} :
    t.readText p = .ok contents ↔
      ∃ place content, t.resolve p = .ok place ∧ t.at? place = some (.file content) ∧
        content.text? = some contents := by
  constructor
  · intro h
    obtain ⟨content, hread, htext⟩ := bind_eq_ok_iff.mp h
    obtain ⟨entry, hopen, hentry⟩ := bind_eq_ok_iff.mp hread
    obtain ⟨place, hplace, hat⟩ := bind_eq_ok_iff.mp hopen
    cases entry with
    | directory => cases hentry
    | file found =>
      cases hentry
      refine ⟨place, content, hplace, ?_, ?_⟩
      · split at hat
        · rename_i hat'
          cases hat
          exact hat'
        · cases hat
      · split at htext
        · rename_i htext'
          cases htext
          exact htext'
        · cases htext
  · rintro ⟨place, content, hplace, hat, htext⟩
    simp only [readText, read, open?, hplace, hat, htext, bind, Except.bind]

/-- Two trees with the same directories. -/
structure SameDirectories (t u : FileTree) : Prop where
  workplace : u.workplace = t.workplace
  at?_iff : ∀ place, u.at? place = some .directory ↔ t.at? place = some .directory

namespace SameDirectories

theorem refl (t : FileTree) : SameDirectories t t := ⟨rfl, fun _ => Iff.rfl⟩

/-- The directories are the same after a file is written that replaces no directory. -/
theorem put (h : SameDirectories t u) (hplace : u.at? place ≠ some .directory) :
    SameDirectories t (u.put place (.file content)) := by
  refine ⟨h.workplace, fun other => ?_⟩
  rw [← h.at?_iff other]
  by_cases heq : other = place
  · subst heq
    have hroot : other ≠ [] := by
      rintro rfl
      exact hplace rfl
    rw [at?_put_self u (.file content) hroot]
    exact iff_of_false (by simp) hplace
  · rw [at?_put_of_ne u (.file content) heq]

theorem follow_eq_ok_iff (h : SameDirectories t u) :
    u.follow place parts = .ok target ↔ t.follow place parts = .ok target := by
  induction parts generalizing place with
  | nil => simp [follow]
  | cons segment parts ih => rw [follow_cons_eq_ok_iff, follow_cons_eq_ok_iff, h.at?_iff, ih]

/-- Where the directories are the same, a path leads to the same place. -/
theorem resolve_eq_ok_iff (h : SameDirectories t u) :
    u.resolve p = .ok place ↔ t.resolve p = .ok place := by
  unfold resolve
  split_ifs
  · rfl
  · rfl
  · rfl
  · split
    · exact h.follow_eq_ok_iff
    · rw [h.workplace]
      exact h.follow_eq_ok_iff

theorem target_eq_ok_iff (h : SameDirectories t u) :
    u.target p = .ok place ↔ t.target p = .ok place := by
  rw [FileTree.target_eq_ok_iff, FileTree.target_eq_ok_iff, h.resolve_eq_ok_iff, ne_eq, h.at?_iff]

end SameDirectories

end ExtractionBench.FileTree
