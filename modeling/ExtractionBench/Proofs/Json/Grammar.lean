import Mathlib.Tactic
import ExtractionBench.Proofs.Json.Numerals

/-!
# The grammar of JSON

What a JSON value looks like, apart from how it is read. Strings are made of characters that stand
for themselves and of escapes, of which the numeric ones need not make up text; lists and objects
may have white space around everything, and be nested to any depth. Every such value is skimmed to
its end.
-/

namespace ExtractionBench.Json

open ExtractionBench.Text (encode encode_cons fromUTF8?_encode)

variable {rest before : List UInt8}

/-- White space. -/
structure Space where
  bytes : List UInt8
  blank : ∀ b ∈ bytes, isSpace b = true

/-! ## Strings -/

/-- A hexadecimal digit. -/
structure HexDigit where
  digit : UInt8
  value : Nat
  isValue : hexValue? digit = some value

/-- A piece of a string: a character that stands for itself, an escape of one letter, or four
hexadecimal digits for a code unit. -/
inductive Piece where
  | plain (c : Char) (hquote : c ≠ '"') (hbackslash : c ≠ '\\') (hcontrol : 0x20 ≤ c.toNat)
  | short (letter : UInt8) (c : Char) (h : shortEscape? letter = some c)
  | unit (i j k l : HexDigit)

/-- The bytes of a piece. -/
def Piece.bytes : Piece → List UInt8
  | .plain c _ _ _ => String.utf8EncodeChar c
  | .short letter _ _ => [byte '\\', letter]
  | .unit i j k l => [byte '\\', byte 'u', i.digit, j.digit, k.digit, l.digit]

/-- The bytes of a string behind its opening quote, up to the closing one. -/
def textBytes (ps : List Piece) : List UInt8 := ps.flatMap Piece.bytes

/-- The code unit is the second one of a pair. -/
def trails (n : Nat) : Bool := 0xdc00 ≤ n && n ≤ 0xdfff

/-- The code unit is the first one of a pair. -/
def leads (n : Nat) : Bool := 0xd800 ≤ n && n ≤ 0xdbff

/-- The character that a pair of code units stands for. -/
def pairChar (high low : Nat) : Char :=
  Char.ofNat ((high - 0xd800) * 0x400 + (low - 0xdc00) + 0x10000)

/-- The characters of a string, if its code units are paired; `pending` is the first one of a
pair. -/
def decodeFrom : (pending : Option Nat) → List Piece → Option (List Char)
  | none, [] => some []
  | some _, [] => none
  | none, .plain c _ _ _ :: ps => (decodeFrom none ps).map (c :: ·)
  | none, .short _ c _ :: ps => (decodeFrom none ps).map (c :: ·)
  | none, .unit i j k l :: ps =>
    let n := hexUnit i.value j.value k.value l.value
    if trails n then none
    else if leads n then decodeFrom (some n) ps
    else (decodeFrom none ps).map (Char.ofNat n :: ·)
  | some high, .unit i j k l :: ps =>
    let n := hexUnit i.value j.value k.value l.value
    if trails n then (decodeFrom none ps).map (pairChar high n :: ·) else none
  | some _, .plain _ _ _ _ :: _ => none
  | some _, .short _ _ _ :: _ => none

/-- The text that a string stands for, if it is one. -/
def text? (ps : List Piece) : Option String := (decodeFrom none ps).map String.ofList

/-- Where a string is read in which the first one of a pair is pending. -/
def pendingState : Option Nat → TextState
  | none => .plain
  | some high => .paired high

theorem ne_u_of_shortEscape {letter : UInt8} {c : Char} (h : shortEscape? letter = some c) :
    letter ≠ byte 'u' := by
  rintro rfl
  cases h

theorem exists_utf8EncodeChar (c : Char) : ∃ b bytes, String.utf8EncodeChar c = b :: bytes :=
  List.exists_cons_of_ne_nil
    (List.ne_nil_of_length_pos (by rw [String.length_utf8EncodeChar]; exact Char.utf8Size_pos c))

/-- A code unit on its own stands for a character, or for the first half of one. -/
theorem closeHex_read (n : Nat) :
    closeHex false none n =
      if trails n then .stop .unpairedSurrogate
      else if leads n then .more (.paired n) []
      else .more .plain (String.utf8EncodeChar (Char.ofNat n)) := rfl

/-- Behind the first half of a character only a second half can follow. -/
theorem closeHex_read_paired (high n : Nat) :
    closeHex false (some high) n =
      if trails n then .more .plain (String.utf8EncodeChar (pairChar high n))
        else .stop .unpairedSurrogate := rfl

/-- What is read on behind a character. -/
theorem map_cons_encode (c : Char) (before : List UInt8) (cs? : Option (List Char)) :
    (cs?.map (c :: ·)).map (fun cs => before.reverse ++ encode cs) =
      cs?.map fun cs => ((String.utf8EncodeChar c).reverse ++ before).reverse ++ encode cs := by
  cases cs? with
  | none => rfl
  | some cs => simp [encode_cons]

/-- A string is read as the characters that its pieces decode to, or refused if they do not. -/
theorem readTextFrom_pieces (ps : List Piece) (pending : Option Nat) (before : List UInt8) :
    Yields (readTextFrom false (pendingState pending) before (textBytes ps ++ byte '"' :: rest))
      ((decodeFrom pending ps).map fun cs => before.reverse ++ encode cs) rest := by
  induction ps generalizing pending before with
  | nil =>
    cases pending with
    | none =>
      exact congrArg (fun bytes => Except.ok (bytes, rest)) (List.append_nil before.reverse).symm
    | some high => exact ⟨_, rfl⟩
  | cons p ps ih =>
    rw [textBytes, List.flatMap_cons, List.append_assoc]
    change Yields (readTextFrom false _ before (p.bytes ++ (textBytes ps ++ byte '"' :: rest))) _
      rest
    cases p with
    | plain c hquote hbackslash hcontrol =>
      have hbytes : ∀ b ∈ String.utf8EncodeChar c, Unescaped b := fun b hb =>
        unescaped_of_mem_utf8EncodeChar hquote hbackslash hcontrol hb
      cases pending with
      | none =>
        rw [decodeFrom, map_cons_encode]
        change Yields (readTextFrom false .plain before (String.utf8EncodeChar c ++ _)) _ rest
        rw [readTextFrom_unescaped hbytes]
        exact ih none _
      | some high =>
        obtain ⟨b, bytes, hc⟩ := exists_utf8EncodeChar c
        have hb : b ≠ byte '\\' := (hbytes b (hc ▸ List.mem_cons_self)).2.1
        have hstep : (TextState.paired high).step false b = .stop .unfinishedSurrogate := if_neg hb
        rw [Piece.bytes, hc, List.cons_append, pendingState, readTextFrom, hstep]
        exact ⟨_, rfl⟩
    | short letter c h =>
      cases pending with
      | none =>
        rw [decodeFrom, map_cons_encode]
        change Yields (readTextFrom false .plain before (byte '\\' :: letter :: _)) _ rest
        rw [readTextFrom_shortEscape (ne_u_of_shortEscape h) h]
        exact ih none _
      | some high =>
        have hstep : (TextState.pairedEscape high).step false letter = .stop .unfinishedSurrogate :=
          if_neg (ne_u_of_shortEscape h)
        have hbackslash :
            (TextState.paired high).step false (byte '\\') = .more (.pairedEscape high) [] := rfl
        rw [Piece.bytes, List.cons_append, pendingState, readTextFrom_more hbackslash,
          List.cons_append, readTextFrom, hstep]
        exact ⟨_, rfl⟩
    | unit i j k l =>
      cases pending with
      | none =>
        have hbackslash : TextState.plain.step false (byte '\\') = .more .escaped [] := rfl
        have hu : TextState.escaped.step false (byte 'u') = .more (.hex none 4 (some 0)) [] := rfl
        rw [Piece.bytes, pendingState, decodeFrom]
        simp only [List.cons_append, List.nil_append]
        rw [readTextFrom_more hbackslash, readTextFrom_more hu,
          readTextFrom_hex i.isValue j.isValue k.isValue l.isValue, closeHex_read]
        split_ifs
        · exact ⟨_, rfl⟩
        · exact ih (some _) before
        · rw [map_cons_encode]
          exact ih none _
      | some high =>
        have hbackslash :
            (TextState.paired high).step false (byte '\\') = .more (.pairedEscape high) [] := rfl
        have hu : (TextState.pairedEscape high).step false (byte 'u') =
            .more (.hex (some high) 4 (some 0)) [] := rfl
        rw [Piece.bytes, pendingState, decodeFrom]
        simp only [List.cons_append, List.nil_append]
        rw [readTextFrom_more hbackslash, readTextFrom_more hu,
          readTextFrom_hex i.isValue j.isValue k.isValue l.isValue, closeHex_read_paired]
        split_ifs
        · rw [map_cons_encode]
          exact ih none _
        · exact ⟨_, rfl⟩

/-- A string is read as the text that it stands for, if it stands for one. -/
theorem readText_pieces (ps : List Piece) :
    Yields (readText (textBytes ps ++ byte '"' :: rest)) (text? ps) rest := by
  have hread : Yields (readTextFrom false .plain [] (textBytes ps ++ byte '"' :: rest))
      ((decodeFrom none ps).map fun cs => [].reverse ++ encode cs) rest :=
    readTextFrom_pieces ps none []
  rw [text?]
  cases hdecode : decodeFrom none ps with
  | none =>
    rw [hdecode] at hread
    obtain ⟨stop, hstop⟩ := hread
    refine ⟨stop, ?_⟩
    rw [readText]
    exact bind_eq_error_iff.mpr (.inl hstop)
  | some cs =>
    rw [hdecode] at hread
    refine readText_eq_ok_iff.mpr ⟨_, hread, ?_⟩
    have htext := fromUTF8?_encode (String.ofList cs)
    rwa [String.toList_ofList] at htext

/-- A string is read over whether or not its pieces decode. -/
theorem skimText_pieces (ps : List Piece) :
    skimText (textBytes ps ++ byte '"' :: rest) = .ok ((), rest) := by
  have hread : ∀ before, ∃ bytes,
      readTextFrom true .plain before (textBytes ps ++ byte '"' :: rest) = .ok (bytes, rest) := by
    induction ps with
    | nil => exact fun before => ⟨_, rfl⟩
    | cons p ps ih =>
      intro before
      rw [textBytes, List.flatMap_cons, List.append_assoc]
      change ∃ bytes, readTextFrom true _ before (p.bytes ++ (textBytes ps ++ byte '"' :: rest)) = _
      cases p with
      | plain c hquote hbackslash hcontrol =>
        rw [Piece.bytes, readTextFrom_unescaped fun b hb =>
          unescaped_of_mem_utf8EncodeChar hquote hbackslash hcontrol hb]
        exact ih _
      | short letter c h =>
        rw [Piece.bytes, List.cons_append, List.cons_append,
          readTextFrom_shortEscape (ne_u_of_shortEscape h) h]
        exact ih _
      | unit i j k l =>
        have hbackslash : TextState.plain.step true (byte '\\') = .more .escaped [] := rfl
        have hu : TextState.escaped.step true (byte 'u') = .more (.hex none 4 (some 0)) [] := rfl
        have hclose : ∀ n, closeHex true none n = .more .plain [] := fun n => rfl
        rw [Piece.bytes]
        simp only [List.cons_append, List.nil_append]
        rw [readTextFrom_more hbackslash, readTextFrom_more hu,
          readTextFrom_hex i.isValue j.isValue k.isValue l.isValue, hclose]
        exact ih _
  obtain ⟨bytes, hbytes⟩ := hread []
  rw [skimText, hbytes]
  rfl

/-! ## Values -/

/-- What a value is for a field: a string, with the text that it stands for; a number, with the
double that is read for it; or something else. -/
inductive Meaning where
  | text (s? : Option String)
  | number (x? : Option Double)
  | other
  deriving DecidableEq

/-- An item of a list, with the white space around it. -/
structure Item where
  before : Space
  value : List UInt8
  meaning : Meaning
  after : Space

/-- A member of an object, with the white space around its parts. -/
structure Member where
  before : Space
  key : List Piece
  gap : Space
  item : Item

/-- The bytes of an item. -/
def Item.bytes (x : Item) : List UInt8 := x.before.bytes ++ (x.value ++ x.after.bytes)

/-- The bytes of a member behind the opening quote of its key. -/
def Member.keyed (m : Member) : List UInt8 :=
  textBytes m.key ++ byte '"' :: (m.gap.bytes ++ byte ':' :: m.item.bytes)

/-- The bytes of a member. -/
def Member.bytes (m : Member) : List UInt8 := m.before.bytes ++ byte '"' :: m.keyed

theorem Member.length_value_lt (m : Member) : m.item.value.length < m.bytes.length := by
  simp only [Member.bytes, Member.keyed, Item.bytes, List.length_append, List.length_cons]
  omega

/-- The values of JSON, with what each is for a field. -/
inductive Value : List UInt8 → Meaning → Prop
  | word {w : List Char}
      (h : w ∈ [['n', 'u', 'l', 'l'], ['t', 'r', 'u', 'e'], ['f', 'a', 'l', 's', 'e']]) :
      Value (w.map byte) .other
  | number (n : Numeral) : Value n.bytes (.number (n.number?.map Number.toDouble))
  | text (ps : List Piece) : Value (byte '"' :: (textBytes ps ++ [byte '"'])) (.text (text? ps))
  | list (space : Space) {items : List Item} (h : ∀ x ∈ items, Value x.value x.meaning) :
      Value (byte '[' :: listing Item.bytes (space.bytes ++ [byte ']']) true items) .other
  | object (space : Space) {members : List Member}
      (h : ∀ m ∈ members, Value m.item.value m.item.meaning) :
      Value (byte '\x7b' :: listing Member.bytes (space.bytes ++ [byte '\x7d']) true members) .other

/-- A JSON text that is an object. -/
structure ObjectText where
  before : Space
  members : List Member
  space : Space
  after : Space
  valid : ∀ m ∈ members, Value m.item.value m.item.meaning

/-- The bytes of a text that is an object. -/
def ObjectText.bytes (o : ObjectText) : List UInt8 :=
  o.before.bytes ++ byte '\x7b' ::
    (listing Member.bytes (o.space.bytes ++ [byte '\x7d']) true o.members ++ o.after.bytes)

section
variable {v : List UInt8} {k : Meaning} {b : UInt8}

theorem skipSpace_of_not_space (h : isSpace b = false) (rest : List UInt8) :
    skipSpace (b :: rest) = b :: rest :=
  List.dropWhile_cons_of_neg (by simp [h])

theorem not_space_of_isDigit (h : isDigit b = true) : isSpace b = false := by
  by_contra hspace
  rw [Bool.not_eq_false] at hspace
  have hends := EndsNumber.of_isSpace hspace []
  rw [hends.1] at h
  cases h

/-- A numeral starts with a sign or with a digit. -/
theorem Numeral.exists_bytes (n : Numeral) :
    ∃ b bytes, n.bytes = b :: bytes ∧ (b = byte '-' ∨ isDigit b = true) := by
  obtain ⟨d, ds, hwhole, hd, -, -⟩ := n.exists_digits
  rw [Numeral.bytes]
  split_ifs
  · exact ⟨_, _, rfl, .inl rfl⟩
  · rw [Numeral.digits, hwhole]
    exact ⟨_, _, rfl, .inr hd⟩

/-- A value starts with a byte that is neither white space nor the end of a list. -/
theorem Value.exists_cons (h : Value v k) :
    ∃ b bytes, v = b :: bytes ∧ isSpace b = false ∧ b ≠ byte ']' := by
  cases h with
  | number n =>
    obtain ⟨b, bytes, hbytes, hb⟩ := n.exists_bytes
    refine ⟨b, bytes, hbytes, ?_⟩
    rcases hb with rfl | hb
    · exact ⟨rfl, by decide⟩
    · exact ⟨not_space_of_isDigit hb, ne_of_isDigit hb rfl⟩
  | word hw =>
    simp only [List.mem_cons, List.not_mem_nil, or_false] at hw
    rcases hw with rfl | rfl | rfl
    · exact ⟨_, _, rfl, rfl, by decide⟩
    · exact ⟨_, _, rfl, rfl, by decide⟩
    · exact ⟨_, _, rfl, rfl, by decide⟩
  | text ps => exact ⟨_, _, rfl, rfl, by decide⟩
  | list space h => exact ⟨_, _, rfl, rfl, by decide⟩
  | object space h => exact ⟨_, _, rfl, rfl, by decide⟩

theorem Value.skipSpace_append (h : Value v k) (rest : List UInt8) :
    skipSpace (v ++ rest) = v ++ rest := by
  obtain ⟨b, bytes, rfl, hb, -⟩ := h.exists_cons
  exact skipSpace_of_not_space hb _

/-- The next item of a list is its value, wherever it stands. -/
theorem nextItem_item {x : Item} (h : Value x.value x.meaning) (rule : CommaRule) (first : Bool)
    (rest : List UInt8) :
    nextItem rule first (comma first ++ x.bytes ++ rest) =
      .ok (true, x.value ++ (x.after.bytes ++ rest)) := by
  obtain ⟨b, bytes, hvalue, hb, hclose⟩ := h.exists_cons
  have hskip : skipSpace (x.bytes ++ rest) = b :: (bytes ++ (x.after.bytes ++ rest)) := by
    rw [Item.bytes, List.append_assoc, skipSpace_blank_append x.before.blank, hvalue,
      List.append_assoc, List.cons_append]
    exact skipSpace_of_not_space hb _
  rw [List.append_assoc, nextItem_comma hskip hclose, hvalue]
  rfl

/-- The next key of an object starts behind its opening quote. -/
theorem nextKey_member (m : Member) (rule : CommaRule) (first : Bool) (rest : List UInt8) :
    nextKey rule first (comma first ++ m.bytes ++ rest) = .ok (true, m.keyed ++ rest) := by
  have hskip : skipSpace (m.bytes ++ rest) = byte '"' :: (m.keyed ++ rest) := by
    rw [Member.bytes, List.append_assoc, skipSpace_blank_append m.before.blank]
    rfl
  rw [List.append_assoc, nextKey_comma hskip]

theorem readColon_gap (gap : Space) (rest : List UInt8) :
    readColon (gap.bytes ++ byte ':' :: rest) = .ok ((), rest) := by
  have hskip : skipSpace (gap.bytes ++ byte ':' :: rest) = byte ':' :: rest :=
    skipSpace_blank_append gap.blank _
  rw [readColon, hskip]
  rfl

theorem skimValueWith_congr {nested : UInt8 → Reader Unit} {input input' : List UInt8}
    (h : skipSpace input = skipSpace input') :
    skimValueWith nested input = skimValueWith nested input' := by
  rw [skimValueWith, skimValueWith, h]

theorem skimWithin_congr {fuel depth : Nat} {input input' : List UInt8}
    (h : skipSpace input = skipSpace input') :
    skimWithin fuel depth input = skimWithin fuel depth input' := by
  cases depth with
  | zero => exact skimValueWith_congr h
  | succ depth => exact skimValueWith_congr h

/-- A numeral is read over as a value. -/
theorem Numeral.skimValueWith_bytes (n : Numeral) {nested : UInt8 → Reader Unit}
    (hrest : EndsNumber rest) :
    skimValueWith nested (n.bytes ++ rest) = .ok ((), rest) := by
  obtain ⟨d, ds, hwhole, hd, -, -⟩ := n.exists_digits
  have hskim := n.skimNumber_digits hrest
  rw [Numeral.bytes]
  split_ifs
  · exact hskim
  · rw [Numeral.digits, hwhole, List.cons_append, List.cons_append] at hskim ⊢
    have hn : d ≠ byte 'n' := ne_of_isDigit hd rfl
    have ht : d ≠ byte 't' := ne_of_isDigit hd rfl
    have hf : d ≠ byte 'f' := ne_of_isDigit hd rfl
    have hminus : d ≠ byte '-' := ne_of_isDigit hd rfl
    rw [skimValueWith_of_cons (skipSpace_of_not_space (not_space_of_isDigit hd) _), skimFrom,
      if_neg hn, if_neg ht, if_neg hf, if_neg hminus, if_pos hd]
    exact hskim

/-- A member is read over up to the end of its value. -/
theorem skimMember_keyed {value : Reader Unit} {m : Member} {after : List UInt8} (u : Unit)
    (h : value (m.item.bytes ++ rest) = .ok ((), after)) :
    skimMember value u (m.keyed ++ rest) = .ok ((), after) := by
  have hkeyed : m.keyed ++ rest =
      textBytes m.key ++ byte '"' :: (m.gap.bytes ++ byte ':' :: (m.item.bytes ++ rest)) := by
    simp [Member.keyed]
  refine bind_eq_ok_iff.mpr ⟨((), m.gap.bytes ++ byte ':' :: (m.item.bytes ++ rest)), ?_, ?_⟩
  · rw [hkeyed]
    exact skimText_pieces m.key
  · exact bind_eq_ok_iff.mpr ⟨((), m.item.bytes ++ rest), readColon_gap m.gap _, h⟩

theorem skimWithin_item {fuel depth : Nat} {x : Item} {rest after : List UInt8}
    (h : skimWithin fuel depth (x.value ++ (x.after.bytes ++ rest)) = .ok ((), after)) :
    skimWithin fuel depth (x.bytes ++ rest) = .ok ((), after) := by
  rw [← h]
  apply skimWithin_congr
  rw [Item.bytes, List.append_assoc, skipSpace_blank_append x.before.blank, List.append_assoc]

/-- A value is skimmed to its end, whatever follows that cannot be part of a number. -/
theorem Value.skimWithin (h : Value v k) {fuel depth : Nat} (hfuel : v.length < fuel)
    (hdepth : v.length ≤ depth) (hrest : EndsNumber rest) :
    skimWithin fuel depth (v ++ rest) = .ok ((), rest) := by
  induction h generalizing depth rest with
  | word hw =>
    simp only [List.mem_cons, List.not_mem_nil, or_false] at hw
    rcases hw with rfl | rfl | rfl
    · cases depth <;> rfl
    · cases depth <;> rfl
    · cases depth <;> rfl
  | number n =>
    cases depth with
    | zero => exact n.skimValueWith_bytes hrest
    | succ depth => exact n.skimValueWith_bytes hrest
  | text ps =>
    have hskim : skimText (textBytes ps ++ byte '"' :: rest) = .ok ((), rest) := skimText_pieces ps
    have hbytes : byte '"' :: (textBytes ps ++ [byte '"']) ++ rest =
        byte '"' :: (textBytes ps ++ byte '"' :: rest) := by
      simp
    rw [hbytes]
    cases depth with
    | zero => exact hskim
    | succ depth => exact hskim
  | @list space items h ih =>
    have hclose : Closes (space.bytes ++ [byte ']']) (byte ']') :=
      closes_blank space.blank rfl ⟨by decide, by decide, by decide, by decide⟩
    rw [List.length_cons] at hfuel hdepth
    obtain ⟨depth, rfl⟩ :=
      Nat.exists_eq_succ_of_ne_zero (Nat.ne_of_gt (Nat.lt_of_lt_of_le (Nat.succ_pos _) hdepth))
    have hcount := length_le_listing Item.bytes hclose.length_pos true items
    have hitems : foldItems .skim (fun _ => Json.skimWithin fuel depth) fuel true ()
        (listing Item.bytes (space.bytes ++ [byte ']']) true items ++ rest) =
        .ok (items.foldl (fun u _ => u) (), rest) := by
      refine foldItems_loop.listing hclose ?_ (by omega) true () rfl
      intro x hx first state rest hrest
      have hput := length_put_le_listing Item.bytes (space.bytes ++ [byte ']']) hx true
      rw [Item.bytes, List.length_append, List.length_append] at hput
      refine ⟨_, _, nextItem_item (h x hx) .skim first rest, ?_,
        skipSpace_blank_append x.after.blank rest⟩
      exact ih x hx (by omega) (by omega) (EndsNumber.blank_append x.after.blank hrest)
    exact hitems
  | @object space members h ih =>
    have hclose : Closes (space.bytes ++ [byte '\x7d']) (byte '\x7d') :=
      closes_blank space.blank rfl ⟨by decide, by decide, by decide, by decide⟩
    rw [List.length_cons] at hfuel hdepth
    obtain ⟨depth, rfl⟩ :=
      Nat.exists_eq_succ_of_ne_zero (Nat.ne_of_gt (Nat.lt_of_lt_of_le (Nat.succ_pos _) hdepth))
    have hcount := length_le_listing Member.bytes hclose.length_pos true members
    have hmembers : foldMembers .skim (skimMember (Json.skimWithin fuel depth)) fuel true ()
        (listing Member.bytes (space.bytes ++ [byte '\x7d']) true members ++ rest) =
        .ok (members.foldl (fun u _ => u) (), rest) := by
      refine foldMembers_loop.listing hclose ?_ (by omega) true () rfl
      intro m hm first state rest hrest
      have hput := length_put_le_listing Member.bytes (space.bytes ++ [byte '\x7d']) hm true
      have hvalue := m.length_value_lt
      refine ⟨_, _, nextKey_member m .skim first rest, ?_,
        skipSpace_blank_append m.item.after.blank rest⟩
      refine skimMember_keyed state (skimWithin_item ?_)
      exact ih m hm (by omega) (by omega) (EndsNumber.blank_append m.item.after.blank hrest)
    exact hmembers

end

end ExtractionBench.Json
