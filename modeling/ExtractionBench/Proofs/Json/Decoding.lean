import Mathlib.Tactic
import ExtractionBench.Json.Decode
import ExtractionBench.Proofs.Traversal

/-!
# Decoding what was encoded

The members of an object count once each, and members with distinct keys all count. What is decoded
from a value is a finite number, a list of strings or a list of members with distinct keys, and each
of these is decoded from its own encoding.
-/

namespace ExtractionBench.Json

variable {members : List (String × Json)} {v : Json}

/-- Merged members have no key twice. -/
theorem nodup_keys_merge (members : List (String × Json)) : ((merge members).map (·.1)).Nodup :=
  nodup_keys_mergeFrom _ _

/-- Members without a repeated key that have their values already stay as they are. -/
theorem mergeFrom_eq_self {left : Std.TreeMap String Json} (hnodup : (members.map (·.1)).Nodup)
    (hleft : ∀ m ∈ members, left[m.1]? = some m.2) : mergeFrom left members = members := by
  induction members generalizing left with
  | nil => rfl
  | cons m rest ih =>
    obtain ⟨key, value⟩ := m
    obtain ⟨hkey, hrest⟩ := List.nodup_cons.mp hnodup
    have hvalue : left[key]? = some value := hleft (key, value) List.mem_cons_self
    rw [mergeFrom, hvalue]
    refine congrArg ((key, value) :: ·) (ih hrest fun m hm => ?_)
    have hne : key ≠ m.1 := by
      rintro rfl
      exact hkey (List.mem_map.mpr ⟨m, hm, rfl⟩)
    rw [Std.TreeMap.getElem?_erase, if_neg (by simpa using hne)]
    exact hleft m (List.mem_cons_of_mem _ hm)

/-- Members with distinct keys all count, in order. -/
theorem merge_eq_self (h : (members.map (·.1)).Nodup) : merge members = members := by
  have hdistinct : members.Pairwise fun a b => ¬ compare a.1 b.1 = .eq :=
    (List.pairwise_map.mp h).imp fun hne heq => hne (Std.LawfulEqCmp.compare_eq_iff_eq.mp heq)
  refine mergeFrom_eq_self h fun m hm => ?_
  exact Std.TreeMap.getElem?_ofList_of_mem (Std.ReflCmp.compare_self) hdistinct hm

/-- Only finite numbers are decoded. -/
theorem isFinite_of_asDouble {x : Double} (h : v.asDouble = .ok x) : x.isFinite = true := by
  cases v with
  | number n =>
    simp only [asDouble] at h
    split at h
    · rename_i hfinite
      cases h
      exact hfinite
    · cases h
  | _ => cases h

/-- A finite number is found again in its value. -/
theorem asDouble_ofDouble {x : Double} (h : x.isFinite = true) : (ofDouble x).asDouble = .ok x := by
  rw [ofDouble, if_pos h]
  simp [asDouble, Number.toDouble, h]

theorem asTexts_map_text (xs : List String) : (array (xs.map text)).asTexts = .ok xs := by
  show (xs.map text).mapM asText = .ok xs
  rw [mapM_eq_ok_iff, List.forall₂_map_left_iff, List.forall₂_same]
  exact fun x _ => rfl

/-- Members that are decoded have distinct keys. -/
theorem nodup_of_asMembers (h : v.asMembers = .ok members) : (members.map (·.1)).Nodup := by
  cases v with
  | object all =>
    cases h
    exact nodup_keys_merge all
  | _ => cases h

theorem asMembers_object (h : (members.map (·.1)).Nodup) :
    (object members).asMembers = .ok members :=
  congrArg _ (merge_eq_self h)

end ExtractionBench.Json
