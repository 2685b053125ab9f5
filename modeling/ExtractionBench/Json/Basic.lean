import ExtractionBench.Numeric.Double
import Std.Data.TreeMap
/-!
# JSON values

A number is an integer or a real, as it was written. An object is the list of its members as they
were written; of several members with one key the last counts, in the place of the first.
-/

namespace ExtractionBench

/-- A number of a JSON text. -/
inductive Number where
  /-- A whole number, written without point and exponent. -/
  | integer (n : Int)
  /-- Any other number. It is finite. -/
  | real (x : Double)
  deriving DecidableEq, Repr

/-- The nearest double. -/
def Number.toDouble : Number → Double
  | .integer n => if n < 0 then -Double.ofNat n.natAbs else Double.ofNat n.natAbs
  | .real x => x

/-- A JSON value. -/
inductive Json where
  /-- No value, `null`. -/
  | null
  /-- A truth value, `true` or `false`. -/
  | bool (b : Bool)
  /-- A number. -/
  | number (n : Number)
  /-- A string. -/
  | text (s : String)
  /-- A list of values. -/
  | array (items : List Json)
  /-- The members of an object, in order. -/
  | object (members : List (String × Json))
  deriving Repr, Inhabited

namespace Json

/-- A double as a value; JSON has no number that is not finite, `null` takes its place. -/
def ofDouble (x : Double) : Json := if x.isFinite then .number (.real x) else .null

/-- A natural as a value. -/
def ofNat (n : Nat) : Json := .number (.integer n)

/-- A string, or `null`. -/
def ofText? : Option String → Json
  | some s => .text s
  | none => .null

/-- The members whose keys have a value `left`, each with this value at the first place of its
key. -/
def mergeFrom (left : Std.TreeMap String Json) : List (String × Json) → List (String × Json)
  | [] => []
  | (key, _) :: rest =>
    match left[key]? with
    | some value => (key, value) :: mergeFrom (left.erase key) rest
    | none => mergeFrom left rest

/-- The members that count: each key once, in the place of its first member and with the value of
its last. -/
def merge (members : List (String × Json)) : List (String × Json) :=
  mergeFrom (.ofList members) members

/-- Every key of merged members has a value left. -/
theorem mem_of_mem_mergeFrom {left : Std.TreeMap String Json} {members : List (String × Json)}
    {key : String} {value : Json} (h : (key, value) ∈ mergeFrom left members) :
    left[key]? = some value := by
  induction members generalizing left with
  | nil => simp [mergeFrom] at h
  | cons m rest ih =>
    obtain ⟨k, v⟩ := m
    simp only [mergeFrom] at h
    split at h
    · next w found =>
      rcases List.mem_cons.1 h with h | h
      · obtain ⟨rfl, rfl⟩ := Prod.mk.inj h
        exact found
      · have hk := ih h
        rw [Std.TreeMap.getElem?_erase] at hk
        split at hk
        · simp at hk
        · exact hk
    · exact ih h

/-- No key of merged members comes twice. -/
theorem nodup_keys_mergeFrom (left : Std.TreeMap String Json) (members : List (String × Json)) :
    ((mergeFrom left members).map (·.1)).Nodup := by
  induction members generalizing left with
  | nil => simp [mergeFrom]
  | cons m rest ih =>
    obtain ⟨k, v⟩ := m
    simp only [mergeFrom]
    split
    · next w found =>
      rw [List.map_cons, List.nodup_cons]
      refine ⟨fun hk => ?_, ih _⟩
      obtain ⟨⟨k', v'⟩, hm, rfl⟩ := List.mem_map.1 hk
      have := mem_of_mem_mergeFrom hm
      simp at this
    · exact ih _

end Json

end ExtractionBench
