import Mathlib.Data.String.Basic
import Mathlib.Tactic
import ExtractionBench.Ascending

/-!
# Keys in ascending order

A change of a table keeps its keys in strictly ascending order and loses none of them. From that the
names of a list are its elements, each once, in ascending order. Looking up a key after a change
gives the new value for the changed key in any of its spellings, and for every other key what was
there before.
-/

namespace ExtractionBench.Ascending

variable {κ β : Type} {before : κ → κ → Bool} {key : κ} {value : Option β → β}
  {table : List (κ × β)}

/-- No key is lost by a change. -/
theorem mem_keys_upsert_of_mem {x : κ} (h : x ∈ table.map (·.1)) :
    x ∈ (upsert before key value table).map (·.1) := by
  induction table with
  | nil => exact absurd h (by simp)
  | cons entry rest ih =>
    obtain ⟨k, v⟩ := entry
    simp only [upsert]
    split
    · exact List.mem_cons_of_mem _ h
    · split
      · rcases List.mem_cons.mp h with rfl | h
        · exact List.mem_cons_self
        · exact List.mem_cons_of_mem _ (ih h)
      · exact h

/-- The changed key is in the table, in one of its spellings. -/
theorem exists_mem_keys_upsert (hirrefl : ∀ k, before k k = false) :
    ∃ x ∈ (upsert before key value table).map (·.1), before x key = false ∧
      before key x = false := by
  induction table with
  | nil => exact ⟨key, by simp [upsert], hirrefl key, hirrefl key⟩
  | cons entry rest ih =>
    obtain ⟨k, v⟩ := entry
    by_cases h1 : before key k = true
    · exact ⟨key, by simp [upsert, h1], hirrefl key, hirrefl key⟩
    · by_cases h2 : before k key = true
      · obtain ⟨x, hx, hxk⟩ := ih
        refine ⟨x, ?_, hxk⟩
        simp only [upsert, h1, h2, if_true, Bool.false_eq_true, if_false]
        exact List.mem_cons_of_mem _ hx
      · exact ⟨k, by simp [upsert, h1, h2], by simpa using h2, by simpa using h1⟩

/-- After a change there is no entry but those from before, a new one for the key, and one with a
value made from the old one. -/
theorem mem_upsert {entry : κ × β} (h : entry ∈ upsert before key value table) :
    entry ∈ table ∨ entry = (key, value none) ∨ ∃ v, (entry.1, v) ∈ table ∧
      entry.2 = value (some v) := by
  induction table with
  | nil => exact .inr (.inl (List.mem_singleton.mp h))
  | cons first rest ih =>
    obtain ⟨k, v⟩ := first
    rw [upsert] at h
    split_ifs at h
    · rcases List.mem_cons.mp h with rfl | h
      · exact .inr (.inl rfl)
      · exact .inl h
    · rcases List.mem_cons.mp h with rfl | h
      · exact .inl List.mem_cons_self
      · rcases ih h with h | h | ⟨v', hv', hentry⟩
        · exact .inl (List.mem_cons_of_mem _ h)
        · exact .inr (.inl h)
        · exact .inr (.inr ⟨v', List.mem_cons_of_mem _ hv', hentry⟩)
    · rcases List.mem_cons.mp h with rfl | h
      · exact .inr (.inr ⟨v, List.mem_cons_self, rfl⟩)
      · exact .inl (List.mem_cons_of_mem _ h)

/-- A change that adds to the weight of a value, new or old, adds as much to the weight of the
table. -/
theorem sum_map_upsert {M : Type} [AddCommMonoid M] (weight : β → M) (added : M)
    (hnew : weight (value none) = added)
    (hold : ∀ entry ∈ table, weight (value (some entry.2)) = weight entry.2 + added) :
    ((upsert before key value table).map fun entry => weight entry.2).sum =
      (table.map fun entry => weight entry.2).sum + added := by
  induction table with
  | nil => simp [upsert, hnew]
  | cons entry rest ih =>
    obtain ⟨k, v⟩ := entry
    obtain ⟨hfirst, hrest⟩ := List.forall_mem_cons.mp hold
    rw [upsert]
    split_ifs
    · rw [List.map_cons, List.sum_cons, hnew, add_comm]
    · rw [List.map_cons, List.sum_cons, ih hrest, List.map_cons, List.sum_cons, add_assoc]
    · rw [List.map_cons, List.sum_cons, hfirst, List.map_cons, List.sum_cons, add_right_comm]

theorem upsert_ne_nil : upsert before key value table ≠ [] := by
  cases table with
  | nil => simp [upsert]
  | cons entry rest =>
    simp only [upsert]
    split_ifs <;> simp

/-- A change keeps the keys in strictly ascending order. -/
theorem pairwise_keys_upsert
    (htrans : ∀ a b c, before a b = true → before b c = true → before a c = true)
    (h : (table.map (·.1)).Pairwise fun a b => before a b = true) :
    ((upsert before key value table).map (·.1)).Pairwise fun a b => before a b = true := by
  induction table with
  | nil => simp [upsert]
  | cons entry rest ih =>
    obtain ⟨k, v⟩ := entry
    obtain ⟨hhead, hrest⟩ := List.pairwise_cons.1 h
    simp only [upsert]
    split
    · rename_i hkey
      refine List.pairwise_cons.2 ⟨fun x hx => ?_, h⟩
      rcases List.mem_cons.mp hx with rfl | hx
      · exact hkey
      · exact htrans _ _ _ hkey (hhead x hx)
    · split
      · rename_i hkey
        refine List.pairwise_cons.2 ⟨fun x hx => ?_, ih hrest⟩
        rcases mem_keys_upsert hx with rfl | hx
        · exact hkey
        · exact hhead x hx
      · exact h

/-! ## Looking up -/

/-- A strict order of keys, in which different spellings of a key tie. -/
structure WeakOrder (before : κ → κ → Bool) : Prop where
  irrefl : ∀ a, before a a = false
  trans : ∀ a b c, before a b = true → before b c = true → before a c = true
  /-- No key ties with both of two keys of which one comes before the other. -/
  between : ∀ a b c, before a c = true → before a b = true ∨ before b c = true

/-- Neither of two keys comes before the other. -/
def tied (before : κ → κ → Bool) (a b : κ) : Bool := !before a b && !before b a

theorem tied_iff {a b : κ} : tied before a b = true ↔ before a b = false ∧ before b a = false := by
  simp [tied]

theorem tied_comm (a b : κ) : tied before a b = tied before b a := Bool.and_comm _ _

namespace WeakOrder

variable {a b c : κ} (hw : WeakOrder before)

include hw

theorem tied_self (a : κ) : tied before a a = true := tied_iff.mpr ⟨hw.irrefl a, hw.irrefl a⟩

theorem tied_trans (hab : tied before a b = true) (hbc : tied before b c = true) :
    tied before a c = true := by
  obtain ⟨h1, h2⟩ := tied_iff.mp hab
  obtain ⟨h3, h4⟩ := tied_iff.mp hbc
  refine tied_iff.mpr ⟨Bool.eq_false_iff.mpr fun h => ?_, Bool.eq_false_iff.mpr fun h => ?_⟩
  · rcases hw.between a b c h with h | h
    · exact Bool.eq_false_iff.mp h1 h
    · exact Bool.eq_false_iff.mp h3 h
  · rcases hw.between c b a h with h | h
    · exact Bool.eq_false_iff.mp h4 h
    · exact Bool.eq_false_iff.mp h2 h

theorem tied_congr (h : tied before a b = true) (c : κ) : tied before a c = tied before b c := by
  rw [Bool.eq_iff_iff]
  exact ⟨hw.tied_trans (tied_comm a b ▸ h), hw.tied_trans h⟩

end WeakOrder

theorem not_tied_of_before {a b : κ} (h : before a b = true) : tied before a b = false := by
  simp [tied, h]

theorem find?_eq (x : κ) (table : List (κ × β)) :
    find? before x table = (table.find? fun entry => tied before x entry.1).map (·.2) := rfl

theorem find?_cons {k x : κ} {v : β} :
    find? before x ((k, v) :: table) = if tied before x k = true then some v
      else find? before x table := by
  rw [find?_eq, find?_eq, List.find?_cons]
  cases tied before x k with
  | true => rfl
  | false => rfl

/-- Nothing is found for a key that comes before all keys. -/
theorem find?_eq_none {x : κ} (h : ∀ k ∈ table.map (·.1), before x k = true) :
    find? before x table = none := by
  induction table with
  | nil => rfl
  | cons entry rest ih =>
    obtain ⟨k, v⟩ := entry
    obtain ⟨hk, hrest⟩ := List.forall_mem_cons.mp h
    rw [find?_cons, if_neg (by simp [not_tied_of_before hk]), ih hrest]

section Find

variable (hw : WeakOrder before) {x : κ}

include hw

theorem find?_congr {y : κ} (h : tied before x y = true) :
    find? before x table = find? before y table := by
  have hsame : (fun entry : κ × β => tied before x entry.1) = fun entry => tied before y entry.1 :=
    funext fun entry => hw.tied_congr h entry.1
  rw [find?_eq, find?_eq, hsame]

/-- The changed key has the value that was made from the old one. -/
theorem find?_upsert_self (h : (table.map (·.1)).Pairwise fun a b => before a b = true) :
    find? before key (upsert before key value table) = some (value (find? before key table)) := by
  induction table with
  | nil => simp [upsert, find?, hw.irrefl]
  | cons entry rest ih =>
    obtain ⟨k, v⟩ := entry
    obtain ⟨hhead, hrest⟩ := List.pairwise_cons.1 h
    by_cases h1 : before key k = true
    · -- The key is new, and all that follows comes after it.
      have hnone : find? before key ((k, v) :: rest) = none := by
        refine find?_eq_none (List.forall_mem_cons.mpr ⟨h1, fun x hx => ?_⟩)
        exact hw.trans _ _ _ h1 (hhead x hx)
      rw [hnone]
      simp only [upsert, h1, if_true]
      rw [find?_cons, if_pos (hw.tied_self key)]
    · by_cases h2 : before k key = true
      · have hne : ¬ tied before key k = true := by simp [tied, h2]
        simp only [upsert, h1, h2, if_true, if_false, Bool.false_eq_true]
        rw [find?_cons, if_neg hne, find?_cons, if_neg hne, ih hrest]
      · have heq : tied before key k = true := by simp [tied, h1, h2]
        simp only [upsert, h1, h2, if_false, Bool.false_eq_true]
        rw [find?_cons, if_pos heq, find?_cons, if_pos heq]

/-- Every other key has the value that it had. -/
theorem find?_upsert_of_not_tied (h : tied before x key = false) :
    find? before x (upsert before key value table) = find? before x table := by
  induction table with
  | nil => simp [upsert, find?_cons, h]
  | cons entry rest ih =>
    obtain ⟨k, v⟩ := entry
    by_cases h1 : before key k = true
    · simp only [upsert, h1, if_true]
      rw [find?_cons, if_neg (by simp [h])]
    · by_cases h2 : before k key = true
      · simp only [upsert, h1, h2, if_true, if_false, Bool.false_eq_true]
        rw [find?_cons, find?_cons, ih]
      · have heq : tied before key k = true := by simp [tied, h1, h2]
        -- The entry is that of the changed key, and the other key does not tie with it.
        have hne : ¬ tied before x k = true := by
          rw [tied_comm, ← hw.tied_congr heq, tied_comm, h]
          exact Bool.false_ne_true
        simp only [upsert, h1, h2, if_false, Bool.false_eq_true]
        rw [find?_cons, if_neg hne, find?_cons, if_neg hne]

/-- What stands in the table is found. -/
theorem find?_of_mem (h : (table.map (·.1)).Pairwise fun a b => before a b = true) {v : β}
    (hmem : (x, v) ∈ table) :
    find? before x table = some v := by
  induction table with
  | nil => cases hmem
  | cons entry rest ih =>
    obtain ⟨k, w⟩ := entry
    obtain ⟨hhead, hrest⟩ := List.pairwise_cons.1 h
    rw [find?_cons]
    rcases List.mem_cons.mp hmem with heq | hmem
    · cases heq
      rw [if_pos (hw.tied_self x)]
    · have hbefore : before k x = true := hhead x (List.mem_map.mpr ⟨_, hmem, rfl⟩)
      rw [if_neg (by rw [tied_comm, not_tied_of_before hbefore]; exact Bool.false_ne_true),
        ih hrest hmem]

end Find

/-- What is found for a key stands in the table under a spelling of it. -/
theorem exists_mem_of_find? {x : κ} {v : β} (h : find? before x table = some v) :
    ∃ k, (k, v) ∈ table ∧ tied before x k = true := by
  rw [find?_eq] at h
  obtain ⟨⟨k, v'⟩, hfind, rfl⟩ := Option.map_eq_some_iff.mp h
  have htied := List.find?_some hfind
  exact ⟨k, List.mem_of_find?_eq_some hfind, htied⟩

/-! ## Names -/

theorem weakOrder_nameBefore : WeakOrder nameBefore where
  irrefl a := decide_eq_false (lt_irrefl a)
  trans _ _ _ hab hbc := decide_eq_true (lt_trans (of_decide_eq_true hab) (of_decide_eq_true hbc))
  between a b c hac := by
    rcases lt_or_ge a b with hab | hba
    · exact .inl (decide_eq_true hab)
    · exact .inr (decide_eq_true (lt_of_le_of_lt hba (of_decide_eq_true hac)))

/-- A name has one spelling. -/
theorem tied_nameBefore_iff {a b : String} : tied nameBefore a b = true ↔ a = b := by
  rw [tied_iff, nameBefore, nameBefore, decide_eq_false_iff_not, decide_eq_false_iff_not, not_lt,
    not_lt]
  exact ⟨fun h => le_antisymm h.2 h.1, fun h => ⟨h.ge, h.le⟩⟩

/-- The keys of a table are names in strictly ascending order. -/
def ByName (table : List (String × β)) : Prop :=
  (table.map (·.1)).Pairwise fun a b => nameBefore a b = true

theorem byName_upsert {table : List (String × β)} {name : String} {value : Option β → β}
    (h : ByName table) :
    ByName (upsert nameBefore name value table) :=
  pairwise_keys_upsert weakOrder_nameBefore.trans h

theorem find?_upsert_name_of_ne {table : List (String × β)} {name other : String}
    {value : Option β → β} (hne : other ≠ name) :
    find? nameBefore other (upsert nameBefore name value table) = find? nameBefore other table :=
  find?_upsert_of_not_tied weakOrder_nameBefore
    (Bool.eq_false_iff.mpr (mt tied_nameBefore_iff.mp hne))

/-- What is found under a name is what stands in the table under it. -/
theorem find?_name_eq_some_iff {table : List (String × β)} (h : ByName table) {name : String}
    {v : β} :
    find? nameBefore name table = some v ↔ (name, v) ∈ table := by
  refine ⟨fun hfind => ?_, find?_of_mem weakOrder_nameBefore h⟩
  obtain ⟨k, hmem, htied⟩ := exists_mem_of_find? hfind
  exact tied_nameBefore_iff.mp htied ▸ hmem

/-- A table is known by what is found in it. -/
theorem byName_ext {table table' : List (String × β)} (h : ByName table) (h' : ByName table')
    (hfind : ∀ name, find? nameBefore name table = find? nameBefore name table') :
    table = table' := by
  have hbefore : table.Pairwise fun a b => nameBefore a.1 b.1 = true := List.pairwise_map.mp h
  have hbefore' : table'.Pairwise fun a b => nameBefore a.1 b.1 = true := List.pairwise_map.mp h'
  have hne : ∀ a b : String × β, nameBefore a.1 b.1 = true → a ≠ b := by
    rintro a _ hab rfl
    exact Bool.false_ne_true ((weakOrder_nameBefore.irrefl a.1).symm.trans hab)
  have hmem : ∀ entry, entry ∈ table ↔ entry ∈ table' := by
    rintro ⟨name, v⟩
    rw [← find?_name_eq_some_iff h, ← find?_name_eq_some_iff h', hfind]
  have hperm : table.Perm table' :=
    (List.perm_ext_iff_of_nodup (hbefore.imp (hne _ _)) (hbefore'.imp (hne _ _))).mpr hmem
  refine hperm.eq_of_pairwise (fun a b _ _ hab hba => ?_) hbefore hbefore'
  exact absurd rfl (hne a a (weakOrder_nameBefore.trans _ _ _ hab hba))

/-- The table that names are collected in. -/
def nameTable (xs : List String) : List (String × Unit) :=
  xs.foldl (fun table x => upsert nameBefore x (fun _ => ()) table) []

theorem nameTable_concat (xs : List String) (x : String) :
    nameTable (xs ++ [x]) = upsert nameBefore x (fun _ => ()) (nameTable xs) := by
  unfold nameTable
  rw [List.foldl_append, List.foldl_cons, List.foldl_nil]

/-- Names are in strictly ascending order. -/
theorem pairwise_names (xs : List String) : (names xs).Pairwise (· < ·) := by
  have h : ((nameTable xs).map (·.1)).Pairwise fun a b => nameBefore a b = true := by
    induction xs using List.reverseRecOn with
    | nil => exact List.Pairwise.nil
    | append_singleton xs x ih =>
      rw [nameTable_concat]
      refine pairwise_keys_upsert (fun a b c hab hbc => ?_) ih
      exact decide_eq_true (lt_trans (of_decide_eq_true hab) (of_decide_eq_true hbc))
  exact h.imp fun hab => of_decide_eq_true hab

theorem nodup_names (xs : List String) : (names xs).Nodup :=
  (pairwise_names xs).imp fun h => ne_of_lt h

/-- The names of a list are its elements. -/
theorem mem_names_iff {xs : List String} {x : String} : x ∈ names xs ↔ x ∈ xs := by
  show x ∈ (nameTable xs).map (·.1) ↔ x ∈ xs
  induction xs using List.reverseRecOn with
  | nil => simp [nameTable]
  | append_singleton xs y ih =>
    rw [nameTable_concat, List.mem_append, List.mem_singleton, ← ih]
    constructor
    · intro h
      exact (mem_keys_upsert h).symm
    · rintro (h | rfl)
      · exact mem_keys_upsert_of_mem h
      · obtain ⟨y, hy, h1, h2⟩ :=
          @exists_mem_keys_upsert _ _ nameBefore x (fun _ => ()) (nameTable xs)
          fun k => decide_eq_false (lt_irrefl k)
        have heq : y = x :=
          le_antisymm (not_lt.mp (of_decide_eq_false h2)) (not_lt.mp (of_decide_eq_false h1))
        exact heq ▸ hy

theorem names_congr {xs ys : List String} (h : ∀ x, x ∈ xs ↔ x ∈ ys) : names xs = names ys := by
  have hperm : (names xs).Perm (names ys) :=
    (List.perm_ext_iff_of_nodup (nodup_names xs) (nodup_names ys)).mpr fun x => by
      rw [mem_names_iff, mem_names_iff, h x]
  exact hperm.eq_of_pairwise (fun _ _ _ _ hab hba => absurd hba hab.asymm) (pairwise_names xs)
    (pairwise_names ys)

/-- Each name is counted once. -/
theorem length_names (xs : List String) : (names xs).length = xs.dedup.length :=
  ((List.perm_ext_iff_of_nodup (nodup_names xs) xs.nodup_dedup).mpr fun x => by
    rw [mem_names_iff, List.mem_dedup]).length_eq

end ExtractionBench.Ascending
