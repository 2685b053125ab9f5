import Mathlib.Tactic
import ExtractionBench.Proofs.Json.Skimming
import ExtractionBench.Proofs.Measurement.Policies
import ExtractionBench.Proofs.Measurement.Stored

/-!
# Truncated results

A stored result ends with its bracket. What is read as a result from the front of a text is read as
the same result from the whole text, and ends at the same place; so if the text is a result, nothing
but white space is missing from a part of it that is one too. Hence no file that breaks off before
the last bracket is ever loaded.
-/

namespace ExtractionBench.Measurement

open Json

variable {path path' : Path} {m m' : Measurement Double} {fuel fuel' : Nat}

/-! ## Fields -/

/-- A number is read as before in every text that goes on behind it. -/
theorem readDouble_extends : Extends [] readDouble readDouble := by
  have hcons : ∀ input b rest, skipSpace input = b :: rest → readDouble input =
      if b = byte '-' then (readNumber true rest).map fun r => (r.1.toDouble, r.2)
      else if isDigit b then (readNumber false (b :: rest)).map fun r => (r.1.toDouble, r.2)
      else refuseValue .number (b :: rest) := by
    intro input b rest hskip
    rw [readDouble, hskip]
  refine .of_skipSpace _ _ ?_ hcons hcons ?_
  · intro input hskip r h
    rw [readDouble, hskip] at h
    cases h
  · intro b
    split_ifs
    · exact readNumber_extends.map _
    · exact (readNumber_cons_extends b).map _
    · exact .of_ne_ok fun _ _ => refuseValue_ne_ok

/-- A string is read as before in every longer text. -/
theorem readString_extends : Extends [] readString readString := by
  have hcons : ∀ input b rest, skipSpace input = b :: rest → readString input =
      if b = byte '"' then readText rest else refuseValue .text (b :: rest) := by
    intro input b rest hskip
    rw [readString, hskip]
  refine .of_skipSpace _ _ ?_ hcons hcons ?_
  · intro input hskip r h
    rw [readString, hskip] at h
    cases h
  · intro b
    split_ifs
    · exact readText_extends.forget
    · exact .of_ne_ok fun _ _ => refuseValue_ne_ok

/-- A field is read as before in every text that goes on behind its value. -/
theorem readField_extends (fs : Fields) (field : Field) :
    Extends [] (readField fs field) (readField fs field) := by
  cases field with
  | name => exact readString_extends.map fun s => { fs with name := some s }
  | extractor => exact readString_extends.map fun s => { fs with extractor := some s }
  | tree => exact readDouble_extends.map fun x => { fs with tree := some x }
  | dag => exact readDouble_extends.map fun x => { fs with dag := some x }
  | micros => exact readDouble_extends.map fun x => { fs with micros := some x }

/-- So is the value of a member, asked for or skimmed. -/
theorem readKeyed_extends (hfuel : fuel ≤ fuel') (fs : Fields) (key : String) :
    Extends [] (readKeyed fuel fs key) (readKeyed fuel' fs key) := by
  unfold readKeyed
  cases Field.ofKey? key with
  | some field =>
    dsimp only
    split_ifs
    · exact .of_ne_ok fun _ _ h => nomatch h
    · exact readColon_extends.bind fun _ => readField_extends fs field
  | none =>
    have hskim : Extends [] (fun input => skimValue fuel input >>= fun r => .ok (fs, r.2))
        (fun input => skimValue fuel' input >>= fun r => .ok (fs, r.2)) := by
      refine (skimValue_extends hfuel).inspect (fun _ rest => .ok (fs, rest))
        (fun _ rest => .ok (fs, rest)) ?_
      intro _ middle _ _ h
      cases h
      exact ⟨rfl, fun more => rfl⟩
    exact readColon_extends.bind fun _ => hskim

theorem readMember_extends (hfuel : fuel ≤ fuel') (fs : Fields) :
    Extends [] (readMember fuel fs) (readMember fuel' fs) :=
  readText_extends.forget.bind fun key => readKeyed_extends hfuel fs key

/-! ## Results -/

/-- A list of fields is read up to its bracket in every longer text. -/
theorem readList_extends (fields : List Field) (first : Bool) (fs : Fields) :
    Extends [byte ']'] (readList fields first fs) (readList fields first fs) := by
  induction fields generalizing first fs with
  | nil =>
    constructor
    intro input x after h
    cases hskip : skipSpace input with
    | nil =>
      rw [readList, hskip] at h
      cases h
    | cons b rest =>
      simp only [readList, hskip, skipSpace_append_of_cons hskip] at h ⊢
      by_cases hclose : b = byte ']'
      · simp only [if_pos hclose] at h ⊢
        cases h
        subst hclose
        have hsuffix := skipSpace_suffix input
        rw [hskip] at hsuffix
        exact ⟨hsuffix, fun more _ => rfl⟩
      · rw [if_neg hclose] at h
        split_ifs at h
        · split at h
          · cases h
          · split_ifs at h
            · cases h
            · cases h
        · cases h
  | cons field fields ih =>
    constructor
    intro input x after h
    obtain ⟨⟨present, middle⟩, hnext, hrest⟩ := bind_eq_ok_iff.mp h
    obtain ⟨-, hmiddle, hmove⟩ := nextItem_moves.take hnext
    cases present with
    | false => cases hrest
    | true =>
      have hitem := (readField_extends fs field).bind fun fs => ih false fs
      obtain ⟨hsuffix, hmore⟩ := hitem.take hrest
      refine ⟨hsuffix.trans hmiddle, ?_⟩
      intro more hseam
      exact bind_eq_ok_iff.mpr ⟨_, hmove more, hmore more hseam⟩

/-- The fields of a result end with a bracket, and are read so from every longer text. -/
theorem readFields_extends {input after : List UInt8} {fs : Fields}
    (h : readFields fuel input = .ok (fs, after)) (hfuel : fuel ≤ fuel') :
    (∃ bracket, (bracket = byte ']' ∨ bracket = byte '\x7d') ∧ bracket :: after <:+ input) ∧
      ∀ more, readFields fuel' (input ++ more) = .ok (fs, after ++ more) := by
  cases hskip : skipSpace input with
  | nil =>
    rw [readFields, hskip] at h
    cases h
  | cons b rest =>
    have hrest : rest <:+ input := (List.suffix_cons b rest).trans (hskip ▸ skipSpace_suffix input)
    simp only [readFields, hskip, skipSpace_append_of_cons hskip] at h ⊢
    split_ifs at h ⊢
    · have hfold : Extends [byte '\x7d'] (foldMembers .read (readMember fuel) fuel true Fields.none)
          (foldMembers .read (readMember fuel') fuel' true Fields.none) :=
        foldMembers_extends (readMember_extends hfuel) hfuel true Fields.none
      exact ⟨⟨_, .inr rfl, (hfold.take h).1.trans hrest⟩, hfold.append h⟩
    · have hlist := readList_extends Field.all true Fields.none
      exact ⟨⟨_, .inl rfl, (hlist.take h).1.trans hrest⟩, hlist.append h⟩
    · exact absurd h refuseValue_ne_ok

/-! ## Truncated files -/

theorem isSpace_of_skipSpace {input : List UInt8} (h : skipSpace input = []) :
    ∀ b ∈ input, isSpace b = true := by
  intro b hb
  exact List.dropWhile_eq_nil_iff.mp h b hb

/-- If a part of a result at its front is a result, nothing but white space is missing from it. -/
theorem isSpace_of_ofJson_append {pre more : List UInt8} (hpre : ofJson path' pre = .ok m')
    (h : ofJson path (pre ++ more) = .ok m) : ∀ b ∈ more, isSpace b = true := by
  obtain ⟨fs', after', hfields', -, -⟩ := ofJson_eq_ok_iff.mp hpre
  obtain ⟨fs, after, hfields, hskip, -⟩ := ofJson_eq_ok_iff.mp h
  have hfuel : pre.length + 1 ≤ (pre ++ more).length + 1 := by
    rw [List.length_append]
    omega
  have hsame := ((readFields_extends hfields' hfuel).2 more).symm.trans hfields
  obtain ⟨-, rfl⟩ := Prod.mk.inj (Except.ok.inj hsame)
  intro b hb
  exact isSpace_of_skipSpace hskip b (List.mem_append_right after' hb)

/-- A result ends in a closing bracket, with nothing but white space behind it. -/
theorem exists_bracket {bytes : List UInt8} (h : ofJson path bytes = .ok m) :
    ∃ front bracket tail, bytes = front ++ bracket :: tail ∧
      (bracket = byte ']' ∨ bracket = byte '\x7d') ∧
      ∀ b ∈ tail, isSpace b = true := by
  obtain ⟨fs, after, hfields, hskip, -⟩ := ofJson_eq_ok_iff.mp h
  obtain ⟨⟨bracket, hbracket, front, rfl⟩, -⟩ := readFields_extends hfields (Nat.le_refl _)
  exact ⟨front, bracket, after, rfl, hbracket, isSpace_of_skipSpace hskip⟩

/-- A text that holds a result ends with a closing bracket, but for white space. A file that holds
less of it than what stands before the bracket is refused as JSON, wherever the text breaks off:
loading fails at it under the strict policy, and finds what it finds without the file under the
lenient one. -/
theorem truncated_refused {bytes : List UInt8} (h : ofJson path bytes = .ok m) :
    ∃ front bracket tail, bytes = front ++ bracket :: tail ∧
      (bracket = byte ']' ∨ bracket = byte '\x7d') ∧
      (∀ b ∈ tail, isSpace b = true) ∧
      ∀ pre, pre <+: front → ∀ tree path' content, path'.extension? ≠ some tableEnding →
        tree.read path' = .ok content → content.data = pre →
          ∃ failure, ofFile tree path' = .error (.json path' failure) ∧
            (∀ before after noClamp, (∀ x ∈ before, ∃ ms, ofFile tree x = .ok ms) →
              (load tree (before ++ path' :: after) ⟨.strict, noClamp⟩).result =
                .error (.json path' failure)) ∧
            (∀ paths noClamp, path' ∈ paths →
              ¬ ∃ ms, (load tree paths ⟨.strict, noClamp⟩).result = .ok ms) ∧
            foundIn tree path' = [] ∧
            ∀ before after noClamp,
              (load tree (before ++ path' :: after) ⟨.lenient, noClamp⟩).result =
              (load tree (before ++ after) ⟨.lenient, noClamp⟩).result := by
  obtain ⟨front, bracket, tail, rfl, hbracket, htail⟩ := exists_bracket h
  refine ⟨front, bracket, tail, rfl, hbracket, htail, ?_⟩
  rintro pre ⟨missing, rfl⟩ tree path' content hpath hread hdata
  have hrefused : ∀ m', ofJson path' content.data ≠ .ok m' := by
    intro m' hm'
    rw [hdata] at hm'
    rw [List.append_assoc] at h
    have hspace := isSpace_of_ofJson_append hm' h bracket (by simp)
    rcases hbracket with rfl | rfl
    · exact absurd hspace (by decide)
    · exact absurd hspace (by decide)
  obtain ⟨failure, hfile⟩ := ofFile_of_not_ofJson hpath hread hrefused
  refine ⟨failure, hfile, ?_, ?_, foundIn_of_error hfile, ?_⟩
  · intro before after noClamp hbefore
    exact load_strict_eq_error_iff.mpr ⟨before, path', after, rfl, hbefore, hfile⟩
  · intro paths noClamp hmem hok
    obtain ⟨ms, hms⟩ := exists_load_strict_iff.mp hok path' hmem
    rw [hfile] at hms
    cases hms
  · intro before after noClamp
    have hnothing : (before ++ path' :: after).flatMap (foundIn tree) =
        (before ++ after).flatMap (foundIn tree) := by
      rw [List.flatMap_append, List.flatMap_cons, foundIn_of_error hfile, List.nil_append,
        List.flatMap_append]
    rw [result_load, result_load, result_ofFiles_lenient, result_ofFiles_lenient, hnothing]

/-- A result with a member that nobody asks for. -/
def wholeText : String :=
  "\x7b\"name\": \"n\", \"extractor\": \"e\", " ++
    "\"tree\": 1, \"dag\": 2, \"micros\": 3, \"x\": [\x7b\x7d]\x7d\n"

/-- What is left of it if it breaks off behind the bracket of an object in the list. -/
def halfText : String :=
  "\x7b\"name\": \"n\", \"extractor\": \"e\", " ++
    "\"tree\": 1, \"dag\": 2, \"micros\": 3, \"x\": [\x7b\x7d"

/-- Both, each in a file. -/
def wholeAndHalf : FileTree :=
  ⟨[], [(["whole.json"], .file (.ofText wholeText)), (["half.json"], .file (.ofText halfText))]⟩

theorem halfText_refused :
    (∃ ms, (load wholeAndHalf [⟨"whole.json"⟩] ⟨.strict, false⟩).result = .ok ms ∧ ms.length = 1) ∧
      (∃ failure, (load wholeAndHalf [⟨"whole.json"⟩, ⟨"half.json"⟩] ⟨.strict, false⟩).result =
        .error (.json ⟨"half.json"⟩ failure)) ∧
      (load wholeAndHalf [⟨"whole.json"⟩, ⟨"half.json"⟩] ⟨.lenient, false⟩).result =
        (load wholeAndHalf [⟨"whole.json"⟩] ⟨.lenient, false⟩).result := by
  let m : Measurement Double := ⟨"n", "e", .ofNat 1, .ofNat 2, .ofNat 3, ⟨"whole.json"⟩, ⟨""⟩⟩
  have hjson : ofJson ⟨"whole.json"⟩ wholeText.toUTF8.toList = .ok m :=
    toOption_eq_some_iff.mp (by decide +kernel)
  have hwhole : ofFile wholeAndHalf ⟨"whole.json"⟩ = .ok [m] :=
    toOption_eq_some_iff.mp (by decide +kernel)
  have hload : (load wholeAndHalf [⟨"whole.json"⟩] ⟨.strict, false⟩).result = .ok [m] :=
    toOption_eq_some_iff.mp (by decide +kernel)
  obtain ⟨front, bracket, tail, heq, -, htail, hrefused⟩ := truncated_refused hjson
  have hfront : halfText.toUTF8.toList <+: front := by
    have hwholeText :
        wholeText.toUTF8.toList = halfText.toUTF8.toList ++ [byte ']', byte '\x7d', byte '\n'] := by
      decide +kernel
    rw [hwholeText] at heq
    rcases List.append_eq_append_iff.mp heq with ⟨between, rfl, -⟩ | ⟨between, hhalf, hrest⟩
    · exact List.prefix_append _ _
    · cases between with
      | nil => rw [hhalf, List.append_nil]
      | cons b between =>
        -- The missing brackets would have to be white space.
        have hmem : byte ']' ∈ tail := by
          rw [(List.cons.inj hrest).2]
          exact List.mem_append_right between List.mem_cons_self
        exact absurd (htail _ hmem) (by decide)
  have hhalf : wholeAndHalf.read ⟨"half.json"⟩ = .ok (.ofText halfText) :=
    toOption_eq_some_iff.mp (by decide +kernel)
  obtain ⟨failure, -, hstrict, -, -, hlenient⟩ :=
    hrefused _ hfront wholeAndHalf ⟨"half.json"⟩ _ (by decide +kernel) hhalf rfl
  refine ⟨⟨[m], hload, rfl⟩, ⟨failure, ?_⟩, hlenient [⟨"whole.json"⟩] [] false⟩
  exact hstrict [⟨"whole.json"⟩] [] false (List.forall_mem_singleton.mpr ⟨[m], hwhole⟩)

end ExtractionBench.Measurement
