import Mathlib.Tactic
import ExtractionBench.Proofs.Json.Grammar
import ExtractionBench.Proofs.Json.WholeNumbers
import ExtractionBench.Proofs.Measurement.Stored

/-!
# What a stored result depends on

Of an object only the five fields count. Each has to be there once, under a key that is text, with a
value of its form; whatever else is in the object, in whatever order and with whatever white space,
is read over. So loading can be told from what the object gives for each field.
-/

namespace ExtractionBench.Measurement

open Json

variable {rest : List UInt8} {v : List UInt8} {k : Meaning} {fs fs' : Fields} {field : Field}
  {m : Member}
  {members : List Member} {fuel : Nat}

/-! ## What a value gives for a field -/

/-- The text of a string that stands for one. -/
def asText? : Meaning → Option String
  | .text s? => s?
  | _ => none

/-- The double of a number that is in range. -/
def asDouble? : Meaning → Option Double
  | .number x? => x?
  | _ => none

/-- The fields after one of them got a value, if it has the form of the field. -/
def Fields.put? (fs : Fields) (k : Meaning) : Field → Option Fields
  | .name => (asText? k).map fun s => { fs with name := some s }
  | .extractor => (asText? k).map fun s => { fs with extractor := some s }
  | .tree => (asDouble? k).map fun x => { fs with tree := some x }
  | .dag => (asDouble? k).map fun x => { fs with dag := some x }
  | .micros => (asDouble? k).map fun x => { fs with micros := some x }

/-- The fields after a member of the object, if it can be read: a field that has no value yet gets
one, anything else is left aside. -/
def Fields.take? (fs : Fields) (m : Member) : Option Fields :=
  (text? m.key).bind fun key =>
    match Field.ofKey? key with
    | some field => if fs.has field then .none else fs.put? m.item.meaning field
    | .none => some fs

theorem exists_error_of_ne_ok {α : Type} {x : Except Stop α} (h : ∀ r, x ≠ .ok r) :
    ∃ stop, x = .error stop := by
  cases x with
  | ok r => exact absurd rfl (h r)
  | error stop => exact ⟨stop, rfl⟩

/-- What is made of a result is yielded where the result is. -/
theorem yields_map {α β : Type} {outcome : Except Stop (α × List UInt8)} {x? : Option α}
    (h : Yields outcome x? rest) (f : α → β) :
    Yields (outcome.map fun r => (f r.1, r.2)) (x?.map f) rest := by
  cases x? with
  | some x =>
    have hok : outcome = .ok (x, rest) := h
    rw [hok]
    rfl
  | none =>
    obtain ⟨stop, rfl⟩ := h
    exact ⟨stop, rfl⟩

/-- Only a value that is a string is read as one. -/
theorem readString_value (h : Value v k) : Yields (readString (v ++ rest)) (asText? k) rest := by
  have hother :
      ∀ b bytes, v = b :: bytes → b ≠ byte '"' → ∃ stop, readString (v ++ rest) = .error stop := by
    intro b bytes hv hb
    have hskip := h.skipSpace_append rest
    rw [hv, List.cons_append] at hskip ⊢
    apply exists_error_of_ne_ok
    intro r hr
    rw [readString, hskip] at hr
    dsimp only at hr
    rw [if_neg hb] at hr
    exact refuseValue_ne_ok hr
  cases h with
  | text ps =>
    have hbytes : byte '"' :: (textBytes ps ++ [byte '"']) ++ rest =
        byte '"' :: (textBytes ps ++ byte '"' :: rest) := by
      simp
    rw [hbytes]
    exact readText_pieces ps
  | word hw =>
    simp only [List.mem_cons, List.not_mem_nil, or_false] at hw
    rcases hw with rfl | rfl | rfl
    · exact hother _ _ rfl (by decide)
    · exact hother _ _ rfl (by decide)
    · exact hother _ _ rfl (by decide)
  | number n =>
    obtain ⟨b, bytes, hbytes, hb⟩ := n.exists_bytes
    refine hother b bytes hbytes ?_
    rcases hb with rfl | hb
    · decide
    · exact ne_of_isDigit hb rfl
  | list space h => exact hother _ _ rfl (by decide)
  | object space h => exact hother _ _ rfl (by decide)

/-- Only a value that is a number is read as one. -/
theorem readDouble_value (h : Value v k) (hrest : EndsNumber rest) :
    Yields (readDouble (v ++ rest)) (asDouble? k) rest := by
  have hother : ∀ b bytes, v = b :: bytes → b ≠ byte '-' → isDigit b = false →
      ∃ stop, readDouble (v ++ rest) = .error stop := by
    intro b bytes hv hminus hdigit
    have hskip := h.skipSpace_append rest
    rw [hv, List.cons_append] at hskip ⊢
    apply exists_error_of_ne_ok
    intro r hr
    rw [readDouble, hskip] at hr
    dsimp only at hr
    rw [if_neg hminus, if_neg (by simp [hdigit])] at hr
    exact refuseValue_ne_ok hr
  cases h with
  | number n =>
    have hread : Yields (readNumber n.negative (n.digits ++ rest)) n.number? rest := by
      have hconsumes := n.consumes rest hrest
      cases hnumber : n.number? with
      | some x =>
        rw [hnumber] at hconsumes
        exact hconsumes
      | none =>
        rw [hnumber] at hconsumes
        obtain ⟨stop, hstop, -⟩ := hconsumes
        exact ⟨stop, hstop⟩
    have hdouble : readDouble (n.bytes ++ rest) =
        (readNumber n.negative (n.digits ++ rest)).map fun r => (r.1.toDouble, r.2) := by
      obtain ⟨d, ds, hwhole, hd, -, -⟩ := n.exists_digits
      have hminus : d ≠ byte '-' := ne_of_isDigit hd rfl
      cases hsign : n.negative with
      | true =>
        rw [Numeral.bytes, if_pos hsign]
        rfl
      | false =>
        rw [Numeral.bytes, if_neg (by simp [hsign]), Numeral.digits, hwhole, List.cons_append,
          List.cons_append, readDouble, skipSpace_of_not_space (not_space_of_isDigit hd)]
        dsimp only
        rw [if_neg hminus, if_pos hd]
    rw [hdouble]
    exact yields_map hread Number.toDouble
  | word hw =>
    simp only [List.mem_cons, List.not_mem_nil, or_false] at hw
    rcases hw with rfl | rfl | rfl
    · exact hother _ _ rfl (by decide) rfl
    · exact hother _ _ rfl (by decide) rfl
    · exact hother _ _ rfl (by decide) rfl
  | text ps => exact hother _ _ rfl (by decide) rfl
  | list space h => exact hother _ _ rfl (by decide) rfl
  | object space h => exact hother _ _ rfl (by decide) rfl

/-- A field is read if it has not been read before, and its value is of the kind that it asks
for. -/
theorem readField_value (h : Value v k) (hrest : EndsNumber rest) (fs : Fields) (field : Field) :
    Yields (readField fs field (v ++ rest)) (fs.put? k field) rest := by
  cases field with
  | name => exact yields_map (readString_value h) _
  | extractor => exact yields_map (readString_value h) _
  | tree => exact yields_map (readDouble_value h hrest) _
  | dag => exact yields_map (readDouble_value h hrest) _
  | micros => exact yields_map (readDouble_value h hrest) _

theorem readField_congr {input input' : List UInt8} (h : skipSpace input = skipSpace input')
    (fs : Fields) (field : Field) : readField fs field input = readField fs field input' := by
  have hstring : readString input = readString input' := by rw [readString, readString, h]
  have hdouble : readDouble input = readDouble input' := by rw [readDouble, readDouble, h]
  cases field with
  | name => simp only [readField, hstring]
  | extractor => simp only [readField, hstring]
  | tree => simp only [readField, hdouble]
  | dag => simp only [readField, hdouble]
  | micros => simp only [readField, hdouble]

/-! ## Members -/

/-- A member is taken, or refused, by its key and its value. -/
theorem readMember_keyed (hvalue : Value m.item.value m.item.meaning)
    (hfuel : m.item.value.length < fuel) (hrest : EndsNumber rest) (fs : Fields) :
    Yields (readMember fuel fs (m.keyed ++ rest)) (fs.take? m) (m.item.after.bytes ++ rest) := by
  have hafter : EndsNumber (m.item.after.bytes ++ rest) :=
    EndsNumber.blank_append m.item.after.blank hrest
  have hkeyed : m.keyed ++ rest =
      textBytes m.key ++ byte '"' :: (m.gap.bytes ++ byte ':' :: (m.item.bytes ++ rest)) := by
    simp [Member.keyed]
  have hitem : skipSpace (m.item.bytes ++ rest) =
      skipSpace (m.item.value ++ (m.item.after.bytes ++ rest)) := by
    rw [Item.bytes, List.append_assoc, skipSpace_blank_append m.item.before.blank,
      List.append_assoc]
  have hkey : Yields (readText (m.keyed ++ rest)) (text? m.key)
      (m.gap.bytes ++ byte ':' :: (m.item.bytes ++ rest)) := by
    rw [hkeyed]
    exact readText_pieces m.key
  rw [readMember_eq, Fields.take?]
  cases htext : text? m.key with
  | none =>
    rw [htext] at hkey
    obtain ⟨stop, hstop⟩ := hkey
    exact ⟨stop, bind_eq_error_iff.mpr (.inl hstop)⟩
  | some key =>
    rw [htext] at hkey
    have hread : readText (m.keyed ++ rest) =
        .ok (key, m.gap.bytes ++ byte ':' :: (m.item.bytes ++ rest)) := hkey
    have hcolon := readColon_gap m.gap (m.item.bytes ++ rest)
    dsimp only
    rw [hread]
    change Yields (readKeyed fuel fs key _) _ _
    rw [Option.bind_some, readKeyed]
    cases Field.ofKey? key with
    | none =>
      have hskim : skimValue fuel (m.item.bytes ++ rest) = .ok ((), m.item.after.bytes ++ rest) :=
        skimWithin_item (hvalue.skimWithin hfuel hfuel.le hafter)
      exact bind_eq_ok_iff.mpr ⟨_, hcolon, bind_eq_ok_iff.mpr ⟨_, hskim, rfl⟩⟩
    | some field =>
      dsimp only
      split_ifs
      · exact ⟨_, rfl⟩
      · rw [hcolon]
        change Yields (readField fs field (m.item.bytes ++ rest)) _ _
        rw [readField_congr hitem]
        exact readField_value hvalue hafter fs field

/-- The fields of an object are those that its members give one after the other. -/
theorem readFields_object (o : ObjectText) (hfuel : o.bytes.length < fuel) :
    Yields (readFields fuel o.bytes) (o.members.foldlM Fields.take? Fields.none) o.after.bytes := by
  have hclose : Closes (o.space.bytes ++ [byte '\x7d']) (byte '\x7d') :=
    closes_blank o.space.blank rfl ⟨by decide, by decide, by decide, by decide⟩
  have hskip : skipSpace o.bytes =
      byte '\x7b' :: (listing Member.bytes (o.space.bytes ++ [byte '\x7d']) true o.members ++
        o.after.bytes) := by
    rw [ObjectText.bytes, skipSpace_blank_append o.before.blank]
    exact skipSpace_of_not_space rfl _
  have hlength :
      (listing Member.bytes (o.space.bytes ++ [byte '\x7d']) true o.members).length < fuel := by
    rw [ObjectText.bytes, List.length_append, List.length_cons, List.length_append] at hfuel
    omega
  have hcount := length_le_listing Member.bytes hclose.length_pos true o.members
  rw [readFields, hskip]
  dsimp only
  rw [if_pos rfl]
  refine foldMembers_loop.foldlM_listing hclose ?_ (by omega) true Fields.none rfl
  intro m hm first fs rest hrest
  have hput := length_put_le_listing Member.bytes (o.space.bytes ++ [byte '\x7d']) hm true
  have hvalue := m.length_value_lt
  refine ⟨_, _, nextKey_member m .read first rest, ?_,
    skipSpace_blank_append m.item.after.blank rest⟩
  exact readMember_keyed (o.valid m hm) (by omega) hrest fs

/-! ## What an object gives for a field -/

/-- What a field has been given. -/
def Fields.meaning? (fs : Fields) : Field → Option Meaning
  | .name => fs.name.map fun s => .text (some s)
  | .extractor => fs.extractor.map fun s => .text (some s)
  | .tree => fs.tree.map fun x => .number (some x)
  | .dag => fs.dag.map fun x => .number (some x)
  | .micros => fs.micros.map fun x => .number (some x)

/-- What the members with the key of a field give for it, in order. -/
def given (members : List Member) (field : Field) : List Meaning :=
  (members.filter fun m => text? m.key = some field.key).map fun m => m.item.meaning

/-- A key names the field that is spelled like it. -/
theorem ofKey?_eq_some_iff {key : String} : Field.ofKey? key = some field ↔ key = field.key := by
  constructor
  · intro h
    have hkey := List.find?_some h
    exact (eq_of_beq hkey).symm
  · rintro rfl
    cases field <;> rfl

theorem has_eq_isSome (fs : Fields) (field : Field) :
    fs.has field = (fs.meaning? field).isSome := by
  cases field <;> simp [Fields.has, Fields.meaning?]

theorem eq_text_of_asText? {s : String} (h : asText? k = some s) : k = .text (some s) := by
  cases k with
  | text s? => exact congrArg Meaning.text h
  | number x? => cases h
  | other => cases h

theorem eq_number_of_asDouble? {x : Double} (h : asDouble? k = some x) : k = .number (some x) := by
  cases k with
  | text s? => cases h
  | number x? => exact congrArg Meaning.number h
  | other => cases h

/-- A field that is put is given what was put, and the others are left as they are. -/
theorem meaning?_of_put? (h : fs.put? k field = some fs') :
    fs'.meaning? field = some k ∧ ∀ other, other ≠ field →
      fs'.meaning? other = fs.meaning? other := by
  cases field
  case name | extractor =>
    obtain ⟨s, hs, rfl⟩ := Option.map_eq_some_iff.mp h
    refine ⟨congrArg some (eq_text_of_asText? hs).symm, ?_⟩
    intro other hne
    cases other <;> first | exact absurd rfl hne | rfl
  case tree | dag | micros =>
    obtain ⟨x, hx, rfl⟩ := Option.map_eq_some_iff.mp h
    refine ⟨congrArg some (eq_number_of_asDouble? hx).symm, ?_⟩
    intro other hne
    cases other <;> first | exact absurd rfl hne | rfl

/-- What a field can have been given can be put. -/
theorem exists_put? {goal : Fields} (h : goal.meaning? field = some k) (fs : Fields) :
    ∃ fs', fs.put? k field = some fs' := by
  cases field
  all_goals
    obtain ⟨_, -, rfl⟩ := Option.map_eq_some_iff.mp h
    exact ⟨_, rfl⟩

/-- Fields are the same if all of them have the same meaning. -/
theorem eq_of_meaning? (h : ∀ field, fs.meaning? field = fs'.meaning? field) : fs = fs' := by
  have htext : ∀ {s? s?' : Option String}, s?.map (fun s => Meaning.text (some s)) =
      s?'.map (fun s => .text (some s)) →
      s? = s?' :=
    fun heq => Option.map_injective (fun _ _ hsame => Option.some.inj (Meaning.text.inj hsame)) heq
  have hnumber : ∀ {x? x?' : Option Double},
      x?.map (fun x => Meaning.number (some x)) = x?'.map (fun x => .number (some x)) → x? = x?' :=
    fun heq =>
      Option.map_injective (fun _ _ hsame => Option.some.inj (Meaning.number.inj hsame)) heq
  obtain ⟨name, extractor, tree, dag, micros⟩ := fs
  obtain ⟨name', extractor', tree', dag', micros'⟩ := fs'
  rw [Fields.mk.injEq]
  exact ⟨htext (h .name), htext (h .extractor), hnumber (h .tree), hnumber (h .dag),
    hnumber (h .micros)⟩

theorem given_cons (m : Member) (members : List Member) (field : Field) :
    given (m :: members) field = given [m] field ++ given members field := by
  simp only [given, List.filter_cons, List.filter_nil]
  split_ifs
  · rfl
  · rfl

/-- A member gives a value to the field of its key, and to no other. -/
theorem given_singleton {key : String} (h : text? m.key = some key) (field : Field) :
    given [m] field = if key = field.key then [m.item.meaning] else [] := by
  simp only [given, h, Option.some.injEq, List.filter_cons, List.filter_nil]
  split_ifs <;> simp_all

/-- What a field has been given, and a member gives, is what it has been given behind the member. -/
theorem given_of_take? (h : fs.take? m = some fs') :
    (text? m.key).isSome = true ∧
      ∀ field, (fs.meaning? field).toList ++ given [m] field = (fs'.meaning? field).toList := by
  rw [Fields.take?] at h
  obtain ⟨key, hkey, h⟩ := Option.bind_eq_some_iff.mp h
  refine ⟨by rw [hkey]; rfl, ?_⟩
  intro other
  rw [given_singleton hkey]
  cases hfield : Field.ofKey? key with
  | none =>
    rw [hfield] at h
    cases h
    have hne : key ≠ other.key := by
      intro heq
      rw [ofKey?_eq_some_iff.mpr heq] at hfield
      cases hfield
    rw [if_neg hne, List.append_nil]
  | some field =>
    rw [hfield] at h
    dsimp only at h
    split_ifs at h with hhas
    obtain ⟨hput, hothers⟩ := meaning?_of_put? h
    obtain rfl := ofKey?_eq_some_iff.mp hfield
    by_cases heq : other = field
    · subst heq
      have hnone : fs.meaning? other = none := by
        rw [has_eq_isSome] at hhas
        simpa using hhas
      rw [if_pos rfl, hnone, hput]
      rfl
    · have hne : field.key ≠ other.key := by
        intro hsame
        have hback := ofKey?_eq_some_iff.mpr hsame
        rw [hfield] at hback
        exact heq (Option.some.inj hback).symm
      rw [if_neg hne, List.append_nil, hothers other heq]

/-- A member can be read if what it gives still fits into what the field is to be given. -/
theorem exists_take? {goal : Fields} (hkey : (text? m.key).isSome = true)
    (h : ∀ field, (fs.meaning? field).toList ++ given [m] field <+: (goal.meaning? field).toList) :
    ∃ fs', fs.take? m = some fs' := by
  obtain ⟨key, hkey⟩ := Option.isSome_iff_exists.mp hkey
  rw [Fields.take?, hkey, Option.bind_some]
  cases hfield : Field.ofKey? key with
  | none => exact ⟨fs, rfl⟩
  | some field =>
    have hfits := h field
    rw [given_singleton hkey, if_pos (ofKey?_eq_some_iff.mp hfield)] at hfits
    have hlength := hfits.length_le
    rw [List.length_append, List.length_singleton] at hlength
    have hnone : fs.meaning? field = none := by
      cases hfs : fs.meaning? field with
      | none => rfl
      | some k =>
        have hgoal : (goal.meaning? field).toList.length ≤ 1 := by
          cases goal.meaning? field with
          | none => exact Nat.zero_le 1
          | some k => exact Nat.le_refl 1
        rw [hfs, Option.toList_some, List.length_singleton] at hlength
        omega
    have hhas : ¬ fs.has field = true := by
      rw [has_eq_isSome, hnone]
      exact Bool.false_ne_true
    cases hgoal : goal.meaning? field with
    | none =>
      rw [hgoal] at hlength
      exact absurd hlength (by simp)
    | some k =>
      rw [hgoal, hnone] at hfits
      have hsame : m.item.meaning = k := (List.cons_prefix_cons.mp hfits).1
      dsimp only
      rw [if_neg hhas, hsame]
      exact exists_put? hgoal fs

/-- The members of an object can be read exactly if their keys are text and they give each field
what it has been given in the end, once. -/
theorem foldlM_take?_eq_some_iff :
    members.foldlM Fields.take? fs = some fs' ↔
      (∀ m ∈ members, (text? m.key).isSome = true) ∧
        ∀ field, (fs.meaning? field).toList ++ given members field =
          (fs'.meaning? field).toList := by
  induction members generalizing fs with
  | nil =>
    constructor
    · intro h
      cases h
      exact ⟨by simp, fun field => List.append_nil _⟩
    · rintro ⟨-, h⟩
      have hsame : fs = fs' := by
        apply eq_of_meaning?
        intro field
        have hhead := congrArg List.head? (h field)
        rwa [given, List.filter_nil, List.map_nil, List.append_nil, Option.head?_toList,
          Option.head?_toList] at hhead
      exact congrArg some hsame
  | cons m members ih =>
    rw [List.foldlM_cons]
    constructor
    · intro h
      obtain ⟨middle, htake, hrest⟩ := Option.bind_eq_some_iff.mp h
      obtain ⟨hkey, hgiven⟩ := given_of_take? htake
      obtain ⟨hkeys, hall⟩ := ih.mp hrest
      refine ⟨List.forall_mem_cons.mpr ⟨hkey, hkeys⟩, ?_⟩
      intro field
      rw [given_cons, ← List.append_assoc, hgiven field, hall field]
    · rintro ⟨hkeys, hall⟩
      obtain ⟨hkey, hkeys⟩ := List.forall_mem_cons.mp hkeys
      have hsplit :
          ∀ field, ((fs.meaning? field).toList ++ given [m] field) ++ given members field =
          (fs'.meaning? field).toList := by
        intro field
        rw [List.append_assoc, ← given_cons, hall field]
      obtain ⟨middle, htake⟩ := exists_take? hkey fun field => ⟨_, hsplit field⟩
      obtain ⟨-, hgiven⟩ := given_of_take? htake
      refine Option.bind_eq_some_iff.mpr ⟨middle, htake, ih.mpr ⟨hkeys, ?_⟩⟩
      intro field
      rw [← hgiven field, hsplit field]

/-! ## Objects -/

/-- What a result has for a field. -/
def meaningIn (x : Measurement Double) : Field → Meaning
  | .name => .text (some x.name)
  | .extractor => .text (some x.extractor)
  | .tree => .number (some x.tree)
  | .dag => .number (some x.dag)
  | .micros => .number (some x.micros)

/-- An object holds a result: its keys are text, and each field is given once, what the result has
for it. -/
def Holding (o : ObjectText) (x : Measurement Double) : Prop :=
  (∀ m ∈ o.members, (text? m.key).isSome = true) ∧
    ∀ field, given o.members field = [meaningIn x field]

/-- An object is a result exactly if it holds each of its fields once and as it must be. -/
theorem ofJson_object_eq_ok_iff (o : ObjectText) {path : Path} {x : Measurement Double} :
    ofJson path o.bytes = .ok x ↔ Holding o x ∧ x.file = path ∧ x.directory = path.parent := by
  have hread := readFields_object o (Nat.lt_succ_self _)
  have hholding : o.members.foldlM Fields.take? Fields.none =
      some ⟨some x.name, some x.extractor, some x.tree, some x.dag, some x.micros⟩ ↔
        Holding o x := by
    rw [foldlM_take?_eq_some_iff, Holding]
    refine and_congr_right fun _ => forall_congr' fun field => ?_
    cases field <;> exact Iff.rfl
  rw [ofJson_eq_ok_iff, ← hholding]
  constructor
  · rintro ⟨fs, after, hfields, -, hcomplete⟩
    obtain ⟨rfl, hfile⟩ := complete_eq_ok_iff.mp hcomplete
    refine ⟨?_, hfile⟩
    cases hfold : o.members.foldlM Fields.take? Fields.none with
    | none =>
      rw [hfold] at hread
      obtain ⟨stop, hstop⟩ := hread
      rw [Nat.succ_eq_add_one, hfields] at hstop
      cases hstop
    | some fs =>
      rw [hfold] at hread
      obtain ⟨rfl, -⟩ := Prod.mk.inj (Except.ok.inj (hfields.symm.trans hread))
      rfl
  · rintro ⟨hfold, hfile⟩
    rw [hfold] at hread
    refine ⟨_, _, hread, ?_, complete_eq_ok_iff.mpr ⟨rfl, hfile⟩⟩
    have hskip := skipSpace_blank_append o.after.blank []
    rwa [List.append_nil] at hskip

/-- A file whose text is an object is loaded exactly if each of the five fields is given once, with
a value of its form, and every key is text; then the result has what the fields are given, and the
file and its directory, unless a quantity is out of range. Whatever else the object has makes no
difference. Otherwise, so if a field is given twice or is missing, the file is refused as JSON. -/
theorem object_decided (o : ObjectText) {tree : FileTree} {path : Path} {content : Content}
    (hpath : path.extension? ≠ some tableEnding) (hread : tree.read path = .ok content)
    (hdata : content.data = o.bytes) :
    (∀ x, Holding o x → x.file = path → x.directory = path.parent →
      ofFile tree path = match x.outOfRange? with
        | some (quantity, value) => .error (.outOfRange path x.name x.extractor quantity value)
        | none => .ok [x]) ∧
      ((¬ ∃ x, Holding o x) → ∃ failure, ofFile tree path = .error (.json path failure)) ∧
      ∀ field, (given o.members field).length ≠ 1 →
        ∃ failure, ofFile tree path = .error (.json path failure) := by
  have hrefused :
      (¬ ∃ x, Holding o x) → ∃ failure, ofFile tree path = .error (.json path failure) := by
    intro hnone
    refine ofFile_of_not_ofJson hpath hread fun x hx => ?_
    rw [hdata] at hx
    exact hnone ⟨x, ((ofJson_object_eq_ok_iff o).mp hx).1⟩
  refine ⟨?_, hrefused, ?_⟩
  · intro x hholding hfile hdirectory
    refine ofFile_of_ofJson hpath hread ?_
    rw [hdata]
    exact (ofJson_object_eq_ok_iff o).mpr ⟨hholding, hfile, hdirectory⟩
  · intro field hlength
    refine hrefused ?_
    rintro ⟨x, -, hgiven⟩
    rw [hgiven field] at hlength
    exact hlength rfl

/-! ## Objects with and without a result -/

/-- The numeral of a whole number. -/
def wholeNumeral (n : Nat) : Numeral where
  negative := false
  whole := (Decimal.digits n).map byte
  fraction := []
  power? := none
  isWhole := by
    obtain ⟨c, cs, hdigits, hc, hcs, -, hzero⟩ := digits_cons n
    rw [hdigits, List.map_cons]
    by_cases hfirst : byte c = byte '0'
    · rw [hzero hfirst, hfirst]
      exact .zero
    · refine .digits (isDigit_byte hc) hfirst ?_
      intro d hd
      obtain ⟨c', hc', rfl⟩ := List.mem_map.mp hd
      exact isDigit_byte (hcs c' hc')
  isFraction := by
    intro d hd
    cases hd

/-- The pieces of a text without escapes. -/
def plainPieces (cs : List Char) (h : ∀ c ∈ cs, c ≠ '"' ∧ c ≠ '\\' ∧ 0x20 ≤ c.toNat) : List Piece :=
  cs.pmap (fun c hc => .plain c hc.1 hc.2.1 hc.2.2) h

/-- No white space. -/
def noSpace : Space := ⟨[], by simp⟩

/-- A member with a blank before its value. -/
def spaced (key : List Piece) (value : List UInt8) (meaning : Meaning) : Member :=
  ⟨noSpace, key, noSpace, ⟨⟨[byte ' '], by simp; rfl⟩, value, meaning, noSpace⟩⟩

/-- A member with a text. -/
def textMember (key ps : List Piece) : Member :=
  spaced key (byte '"' :: (textBytes ps ++ [byte '"'])) (.text (text? ps))

/-- A member with a number. -/
def numberMember (key : List Piece) (n : Numeral) : Member :=
  spaced key n.bytes (.number (n.number?.map Number.toDouble))

theorem value_textMember (key ps : List Piece) :
    Value (textMember key ps).item.value (textMember key ps).item.meaning :=
  .text ps

theorem value_numberMember (key : List Piece) (n : Numeral) :
    Value (numberMember key n).item.value (numberMember key n).item.meaning :=
  .number n

/-- The members of a result, in another order than that of the fields. -/
def resultMembers (name : List Piece) (tree : Numeral) : List Member :=
  [numberMember (plainPieces ['d', 'a', 'g'] (by simp)) (wholeNumeral 2),
    textMember (plainPieces ['n', 'a', 'm', 'e'] (by simp)) name,
    numberMember (plainPieces ['m', 'i', 'c', 'r', 'o', 's'] (by simp)) (wholeNumeral 3),
    numberMember (plainPieces ['t', 'r', 'e', 'e'] (by simp)) tree,
    textMember (plainPieces ['e', 'x', 't', 'r', 'a', 'c', 't', 'o', 'r'] (by simp))
      (plainPieces ['e'] (by simp))]

/-- An object with a result behind other members. -/
def resultObject (others : List Member) (hothers : ∀ m ∈ others, Value m.item.value m.item.meaning)
    (name : List Piece) (tree : Numeral) : ObjectText where
  before := noSpace
  members := others ++ resultMembers name tree
  space := noSpace
  after := noSpace
  valid := by
    refine List.forall_mem_append.mpr ⟨hothers, ?_⟩
    rw [resultMembers, List.forall_mem_cons, List.forall_mem_cons, List.forall_mem_cons,
      List.forall_mem_cons, List.forall_mem_singleton]
    exact ⟨value_numberMember _ _, value_textMember _ _, value_numberMember _ _,
      value_numberMember _ _, value_textMember _ _⟩

/-- A hexadecimal digit of an escape. -/
def hexDigit (digit : UInt8) (h : (hexValue? digit).isSome = true) : HexDigit :=
  ⟨digit, (hexValue? digit).get h, (Option.some_get h).symm⟩

/-- The first unit of a pair, on its own. -/
def unpaired : List Piece :=
  [.unit (hexDigit (byte 'd') (by decide)) (hexDigit (byte '8') (by decide))
    (hexDigit (byte '0') (by decide))
    (hexDigit (byte '0') (by decide))]

/-- Members that a result does not have: one that claims to tell the file, and two with one key. -/
def strangeMembers : List Member :=
  [textMember (plainPieces ['j', 's', 'o', 'n', '_', 'p', 'a', 't', 'h'] (by simp))
    (plainPieces ['f'] (by simp)),
    spaced (plainPieces ['x'] (by simp))
      (byte '[' :: listing Item.bytes (noSpace.bytes ++ [byte ']']) true
        [⟨noSpace, byte '"' :: (textBytes unpaired ++ [byte '"']), .text (text? unpaired),
          noSpace⟩])
      .other,
    spaced (plainPieces ['x'] (by simp)) (['n', 'u', 'l', 'l'].map byte) .other]

theorem strangeMembers_valid : ∀ m ∈ strangeMembers, Value m.item.value m.item.meaning := by
  rw [strangeMembers, List.forall_mem_cons, List.forall_mem_cons, List.forall_mem_singleton]
  exact ⟨value_textMember _ _, .list noSpace (List.forall_mem_singleton.mpr (.text unpaired)),
    .word (by decide)⟩

/-- A result behind the strange members. -/
def strangeObject : ObjectText :=
  resultObject strangeMembers strangeMembers_valid (plainPieces ['n'] (by simp)) (wholeNumeral 1)

/-- A result behind a member that gives a field another time. -/
def repeatedObject : ObjectText :=
  resultObject [numberMember (plainPieces ['d', 'a', 'g'] (by simp)) (wholeNumeral 2)]
    (List.forall_mem_singleton.mpr (value_numberMember _ _)) (plainPieces ['n'] (by simp))
    (wholeNumeral 1)

/-- Both, each in a file. -/
def strangeAndRepeated : FileTree :=
  ⟨[], [(["a"], .directory),
    (["a", "strange.json"], .file (.ofText (
      "\x7b\"json_path\": \"f\",\"x\": [\"\\ud800\"],\"x\": null,\"dag\": 2,\"name\": \"n\"," ++
        "\"micros\": 3,\"tree\": 1,\"extractor\": \"e\"\x7d"))),
    (["repeated.json"], .file (.ofText (
      "\x7b\"dag\": 2,\"dag\": 2,\"name\": \"n\"," ++
        "\"micros\": 3,\"tree\": 1,\"extractor\": \"e\"\x7d")))]⟩

theorem strangeObject_loaded :
    ofFile strangeAndRepeated ⟨"a/strange.json"⟩ =
        .ok [⟨"n", "e", .ofNat 1, .ofNat 2, .ofNat 3, ⟨"a/strange.json"⟩, ⟨"a"⟩⟩] ∧
      ∃ failure, ofFile strangeAndRepeated ⟨"repeated.json"⟩ =
        .error (.json ⟨"repeated.json"⟩ failure) := by
  have hstrange : strangeAndRepeated.read ⟨"a/strange.json"⟩ = .ok (.bytes strangeObject.bytes) :=
    toOption_eq_some_iff.mp (by decide +kernel)
  have hrepeated : strangeAndRepeated.read ⟨"repeated.json"⟩ = .ok (.bytes repeatedObject.bytes) :=
    toOption_eq_some_iff.mp (by decide +kernel)
  let x : Measurement Double := ⟨"n", "e", .ofNat 1, .ofNat 2, .ofNat 3, ⟨"a/strange.json"⟩, ⟨"a"⟩⟩
  have hholding : Holding strangeObject x := by
    refine ⟨by decide +kernel, ?_⟩
    intro field
    cases field <;> decide +kernel
  constructor
  · have hloaded := (object_decided strangeObject (by decide +kernel) hstrange rfl).1 x hholding rfl
      (by decide +kernel)
    have hrange : x.outOfRange? = none := by decide +kernel
    rwa [hrange] at hloaded
  · exact (object_decided repeatedObject (by decide +kernel) hrepeated rfl).2.2 .dag
      (by decide +kernel)

/-- The greatest double, as a number. -/
def greatest : Nat := (2 ^ 53 - 1) * 2 ^ 971

/-- A result with the greatest double for its tree cost, written with all its digits. -/
def greatestObject : ObjectText :=
  resultObject [] (List.forall_mem_nil _) (plainPieces ['n'] (by simp)) (wholeNumeral greatest)

/-- A result behind a member whose key is no text. -/
def unpairedKeyObject : ObjectText :=
  resultObject [numberMember unpaired (wholeNumeral 0)]
    (List.forall_mem_singleton.mpr (value_numberMember _ _))
    (plainPieces ['n'] (by simp)) (wholeNumeral 1)

/-- A result whose name is no text. -/
def unpairedNameObject : ObjectText :=
  resultObject [] (List.forall_mem_nil _) unpaired (wholeNumeral 1)

/-- Numbers are read with two roundings, which take the greatest double out of range; and a string
with half of a pair cannot be read, be it a key that nobody asks for. So not every object with the
five fields is loaded. -/
theorem greatest_and_unpaired_refused :
    (Double.ofNat greatest).isFinite = true ∧ valueFrom 0 (wholeNumeral greatest).whole = greatest ∧
      ∀ o ∈ [greatestObject, unpairedKeyObject, unpairedNameObject],
        (∀ field, (given o.members field).length = 1) ∧
          ∃ failure, ofFile ⟨[], [(["a.json"], .file (.bytes o.bytes))]⟩ ⟨"a.json"⟩ =
            .error (.json ⟨"a.json"⟩ failure) := by
  have hrefused : ∀ o : ObjectText, (∀ x, ¬ Holding o x) →
      ∃ failure, ofFile ⟨[], [(["a.json"], .file (.bytes o.bytes))]⟩ ⟨"a.json"⟩ =
        .error (.json ⟨"a.json"⟩ failure) := by
    intro o hnone
    refine ofFile_of_not_ofJson (by decide +kernel) rfl fun x hx => ?_
    exact hnone x ((ofJson_object_eq_ok_iff o).mp hx).1
  refine ⟨by decide +kernel, by decide +kernel, ?_⟩
  rw [List.forall_mem_cons, List.forall_mem_cons, List.forall_mem_singleton]
  refine ⟨⟨?_, ?_⟩, ⟨?_, ?_⟩, ⟨?_, ?_⟩⟩
  · intro field
    cases field <;> decide +kernel
  · refine hrefused _ fun x hx => ?_
    have hgiven := hx.2 .tree
    have htree : given greatestObject.members .tree = [.number none] := by decide +kernel
    rw [htree] at hgiven
    cases hgiven
  · intro field
    cases field <;> decide +kernel
  · refine hrefused _ fun x hx => ?_
    exact absurd (hx.1 _ List.mem_cons_self) (by decide +kernel)
  · intro field
    cases field <;> decide +kernel
  · refine hrefused _ fun x hx => ?_
    have hgiven := hx.2 .name
    have hname : given unpairedNameObject.members .name = [.text none] := by decide +kernel
    rw [hname] at hgiven
    cases hgiven

end ExtractionBench.Measurement
