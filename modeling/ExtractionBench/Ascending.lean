/-!
# Tables in ascending key order

A table is the list of its keys and values, with the keys in strictly ascending order. Keys may be
written in several ways: two keys are the same if neither comes before the other, and the spelling
that came first is kept.
-/

namespace ExtractionBench.Ascending

variable {κ β : Type}

/-- The table with a new value for `key`, made from the old one if there is one. -/
def upsert (before : κ → κ → Bool) (key : κ) (value : Option β → β) : List (κ × β) → List (κ × β)
  | [] => [(key, value none)]
  | (k, v) :: rest =>
    if before key k then (key, value none) :: (k, v) :: rest
    else if before k key then (k, v) :: upsert before key value rest
    else (k, value (some v)) :: rest

/-- The value of a key. -/
def find? (before : κ → κ → Bool) (key : κ) (table : List (κ × β)) : Option β :=
  (table.find? fun entry => !before key entry.1 && !before entry.1 key).map (·.2)

/-- The order of names, by their characters. -/
def nameBefore (a b : String) : Bool := decide (a < b)

/-- The names of a list in ascending order, each once. -/
def names (xs : List String) : List String :=
  (xs.foldl (fun table x => upsert nameBefore x (fun _ => ()) table) []).map (·.1)

/-- A key of the table after a change is the changed key or was there before. -/
theorem mem_keys_upsert {before : κ → κ → Bool} {key : κ} {value : Option β → β}
    {table : List (κ × β)} {x : κ} (h : x ∈ (upsert before key value table).map (·.1)) :
    x = key ∨ x ∈ table.map (·.1) := by
  induction table with
  | nil => simpa [upsert] using h
  | cons entry rest ih =>
    obtain ⟨k, v⟩ := entry
    simp only [upsert] at h
    split at h
    · simpa using h
    · split at h
      · simp only [List.map_cons, List.mem_cons] at h ⊢
        rcases h with h | h
        · exact .inr (.inl h)
        · exact (ih h).imp id .inr
      · simp only [List.map_cons, List.mem_cons] at h ⊢
        exact .inr h

end ExtractionBench.Ascending
