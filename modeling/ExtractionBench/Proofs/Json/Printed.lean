import Mathlib.Data.List.DropRight
import Mathlib.Tactic
import ExtractionBench.Proofs.Json.Numbers
import ExtractionBench.Proofs.Json.Strings

/-!
# What is written is read back

A value whose numbers are read back one by one, and whose lists and objects are not nested too deep,
is read back from what is written for it: on one line or over several, since between items only
white space is added.
-/

namespace ExtractionBench.Json

open ExtractionBench.Text
  (encode encode_nil encode_append encode_cons encode_ascii utf8EncodeChar_ascii
  toList_toUTF8_ofList)

/-! ## White space -/

/-- The characters are white space for the reader. -/
def Blank (cs : List Char) : Prop := ∀ b ∈ encode cs, isSpace b = true

/-- White space is skipped, whatever follows it. -/
theorem Blank.skipSpace {cs : List Char} (h : Blank cs) (rest : List UInt8) :
    skipSpace (encode cs ++ rest) = skipSpace rest :=
  skipSpace_blank_append h rest

theorem skipSpace_skipSpace (input : List UInt8) :
    skipSpace (skipSpace input) = skipSpace input := by
  unfold skipSpace
  exact List.dropWhile_idempotent _ _

/-- A layout that adds nothing but white space, to the colon and between items. -/
structure Layout.Spacious (layout : Layout) : Prop where
  lineStart : ∀ depth, Blank (layout.lineStart depth)
  colon : ∃ blank, Blank blank ∧ layout.colon = ':' :: blank

theorem blank_nil : Blank [] := fun _ h => nomatch h

theorem blank_of_forall_mem {cs : List Char} (h : ∀ c ∈ cs, c = ' ' ∨ c = '\n') : Blank cs := by
  intro b hb
  obtain ⟨c, hc, hbc⟩ := List.mem_flatMap.mp hb
  rcases h c hc with rfl | rfl
  · cases List.mem_singleton.mp hbc
    rfl
  · cases List.mem_singleton.mp hbc
    rfl

/-- Lines of their own add nothing but white space. -/
theorem Layout.spacious_pretty : Layout.pretty.Spacious where
  lineStart depth := by
    apply blank_of_forall_mem
    intro c hc
    rcases List.mem_cons.mp hc with rfl | hc
    · exact .inr rfl
    · exact .inl (List.eq_of_mem_replicate hc)
  colon := ⟨[' '], blank_of_forall_mem (by simp), rfl⟩

/-- The bytes close a list or an object: white space, and the bracket. -/
structure Closes (close : List UInt8) (bracket : UInt8) : Prop where
  skip : ∀ rest, skipSpace (close ++ rest) = bracket :: rest
  ends : ∀ rest, EndsNumber (close ++ rest)

/-- A bracket behind white space closes. -/
theorem closes_blank {blank : List UInt8} (h : ∀ b ∈ blank, isSpace b = true) {b : UInt8}
    (hb : isSpace b = false) (hends : EndsNumber [b]) : Closes (blank ++ [b]) b := by
  constructor
  · intro rest
    rw [List.append_assoc, skipSpace_blank_append h]
    exact List.dropWhile_cons_of_neg (by simp [hb])
  · intro rest
    rw [List.append_assoc]
    exact EndsNumber.blank_append h hends

theorem Closes.length_pos {close : List UInt8} {b : UInt8} (h : Closes close b) :
    0 < close.length := by
  apply List.length_pos_iff.mpr
  rintro rfl
  exact List.cons_ne_nil b [] (h.skip []).symm

/-! ## Between items -/

section
variable {input input' more : List UInt8} {b : UInt8} {rule : CommaRule} {first : Bool}

/-- White space before an item does not matter. -/
theorem nextItem_congr (h : skipSpace input = skipSpace input') :
    nextItem rule first input = nextItem rule first input' := by
  rw [nextItem, nextItem, h]

theorem nextKey_congr (h : skipSpace input = skipSpace input') :
    nextKey rule first input = nextKey rule first input' := by
  rw [nextKey, nextKey, h]

/-- The bracket of a list is found behind white space. -/
theorem nextItem_close (h : skipSpace input = byte ']' :: more) :
    nextItem rule first input = .ok (false, more) := by
  rw [nextItem, h]
  rfl

/-- The brace of an object is found behind white space. -/
theorem nextKey_close (h : skipSpace input = byte '\x7d' :: more) :
    nextKey rule first input = .ok (false, more) := by
  rw [nextKey, h]
  rfl

theorem readValueWith_congr {nested : UInt8 → Reader Json}
    (h : skipSpace input = skipSpace input') :
    readValueWith nested input = readValueWith nested input' := by
  rw [readValueWith, readValueWith, h]

/-- White space before a value does not matter. -/
theorem readValue_congr {fuel depth : Nat} (h : skipSpace input = skipSpace input') :
    readValue fuel depth input = readValue fuel depth input' := by
  cases depth with
  | zero => exact readValueWith_congr h
  | succ depth => exact readValueWith_congr h

/-- No value starts with the bracket that a list ends with. -/
theorem exists_of_readValue {fuel depth : Nat} {r : Json × List UInt8}
    (h : readValue fuel depth input = .ok r) :
    ∃ b more, skipSpace input = b :: more ∧ b ≠ byte ']' := by
  cases hskip : skipSpace input with
  | nil =>
    have hempty : skipSpace input = skipSpace [] := hskip
    rw [readValue_congr hempty] at h
    cases depth <;> cases h
  | cons b more =>
    refine ⟨b, more, rfl, ?_⟩
    rintro rfl
    have hbracket : skipSpace input = skipSpace (byte ']' :: more) := hskip
    rw [readValue_congr hbracket] at h
    cases depth <;> cases h

/-- What stands before an item that is not the first. -/
def comma (first : Bool) : List UInt8 := if first then [] else [byte ',']

/-- An item is found behind its comma, which the first one does not have. -/
theorem nextItem_comma (h : skipSpace input = b :: more) (hb : b ≠ byte ']') (first : Bool) :
    nextItem rule first (comma first ++ input) = .ok (true, b :: more) := by
  cases first with
  | true =>
    change nextItem rule true input = _
    rw [nextItem, h]
    dsimp only
    rw [if_neg hb]
    rfl
  | false =>
    change nextItem rule false (byte ',' :: input) = _
    have hskip : skipSpace (byte ',' :: input) = byte ',' :: input := rfl
    rw [nextItem, hskip]
    dsimp only
    rw [h, if_neg (by decide), if_neg (by decide), if_pos rfl]
    dsimp only
    rw [if_neg hb]

/-- A key is found behind its comma, which the first one does not have, and its opening quote. -/
theorem nextKey_comma (h : skipSpace input = byte '"' :: more) (first : Bool) :
    nextKey rule first (comma first ++ input) = .ok (true, more) := by
  cases first with
  | true =>
    change nextKey rule true input = _
    rw [nextKey, h]
    rfl
  | false =>
    change nextKey rule false (byte ',' :: input) = _
    have hskip : skipSpace (byte ',' :: input) = byte ',' :: input := rfl
    rw [nextKey, hskip]
    dsimp only
    rw [h, if_neg (by decide), if_neg (by decide), if_pos rfl]
    rfl

end

/-! ## Items in a row -/

section
variable {β σ : Type} {put : β → List UInt8} {close rest : List UInt8}

/-- Items in a row, with commas between them, up to the end of their list. -/
def listing (put : β → List UInt8) (close : List UInt8) : Bool → List β → List UInt8
  | _, [] => close
  | first, x :: xs => comma first ++ put x ++ listing put close false xs

/-- A list is written with at least one byte for every item. -/
theorem length_le_listing (put : β → List UInt8) (hclose : 0 < close.length) (first : Bool)
    (xs : List β) :
    xs.length ≤ (listing put close first xs).length := by
  have hcommas : ∀ ys : List β, ys.length + close.length ≤ (listing put close false ys).length := by
    intro ys
    induction ys with
    | nil => simp [listing]
    | cons y ys ih =>
      simp only [listing, comma, List.length_append, List.length_cons, Bool.false_eq_true, if_false,
        List.length_nil]
      omega
  cases xs with
  | nil => exact Nat.zero_le _
  | cons x xs =>
    have hrest := hcommas xs
    simp only [listing, List.length_append, List.length_cons]
    omega

/-- A list is at least as long as each of its items. -/
theorem length_put_le_listing (put : β → List UInt8) (close : List UInt8) {xs : List β} {x : β}
    (hx : x ∈ xs) (first : Bool) : (put x).length ≤ (listing put close first xs).length := by
  induction xs generalizing first with
  | nil => cases hx
  | cons y xs ih =>
    simp only [listing, List.length_append]
    rcases List.mem_cons.mp hx with rfl | hx
    · omega
    · have := ih hx false
      omega

/-- What follows an item ends a number: a comma or the end of the list. -/
theorem EndsNumber.listing (hclose : EndsNumber (close ++ rest)) (xs : List β) :
    EndsNumber (Json.listing put close false xs ++ rest) := by
  cases xs with
  | nil => exact hclose
  | cons x xs =>
    exact ⟨by decide, by decide, by decide, by decide⟩

/-- A loop that moves to the next item, adds it to a state and goes on, up to a bracket. -/
structure Loop (fold : Nat → Bool → σ → Reader σ) (next : Bool → Reader Bool) (item : σ → Reader σ)
    (bracket : UInt8) : Prop where
  round : ∀ fuel first state input, fold (fuel + 1) first state input = (do
    let (more, rest) ← next first input
    if more then
      let (state, rest) ← item state rest
      fold fuel false state rest
    else return (state, rest))
  congr : ∀ {first input input'}, skipSpace input = skipSpace input' →
    next first input = next first input'
  close : ∀ {first input rest}, skipSpace input = bracket :: rest →
    next first input = .ok (false, rest)

/-- Items are read in rounds, one for each, until there is no next one. -/
theorem foldItems_loop {rule : CommaRule} {item : σ → Reader σ} :
    Loop (foldItems rule item) (nextItem rule) item (byte ']') where
  round _ _ _ _ := rfl
  congr := nextItem_congr
  close := nextItem_close

/-- So are members. -/
theorem foldMembers_loop {rule : CommaRule} {member : σ → Reader σ} :
    Loop (foldMembers rule member) (nextKey rule) member (byte '\x7d') where
  round _ _ _ _ := rfl
  congr := nextKey_congr
  close := nextKey_close

/-- What a reader comes to in front of a rest: something, or a problem. -/
def Yields {α : Type} (outcome : Except Stop (α × List UInt8)) (x? : Option α)
    (rest : List UInt8) : Prop :=
  match x? with
  | some x => outcome = .ok (x, rest)
  | none => ∃ stop, outcome = .error stop

/-- A loop takes the items of a row one after the other, up to the first that it cannot take. -/
theorem Loop.foldlM_listing {fold : Nat → Bool → σ → Reader σ} {next : Bool → Reader Bool}
    {item : σ → Reader σ} {bracket : UInt8} (h : Loop fold next item bracket)
    (hclose : Closes close bracket) {step : σ → β → Option σ} {xs : List β}
    (hitem : ∀ x ∈ xs, ∀ first state rest, EndsNumber rest → ∃ start after,
      next first (comma first ++ put x ++ rest) = .ok (true, start) ∧
      Yields (item state start) (step state x) after
        ∧ skipSpace after = skipSpace rest)
    {fuel : Nat} (hfuel : xs.length < fuel) (first : Bool) (state : σ) {input : List UInt8}
    (hinput : skipSpace input = skipSpace (Json.listing put close first xs ++ rest)) :
    Yields (fold fuel first state input) (xs.foldlM step state) rest := by
  -- a number among the items ends before the comma or the bracket behind it
  induction xs generalizing fuel first state input with
  | nil =>
    obtain ⟨fuel, rfl⟩ := Nat.exists_eq_succ_of_ne_zero (Nat.ne_of_gt hfuel)
    rw [h.round, h.close (hinput.trans (hclose.skip rest))]
    rfl
  | cons x xs ih =>
    obtain ⟨fuel, rfl⟩ := Nat.exists_eq_succ_of_ne_zero (Nat.ne_of_gt (Nat.zero_lt_of_lt hfuel))
    have hrest : EndsNumber (Json.listing put close false xs ++ rest) :=
      EndsNumber.listing (hclose.ends rest) xs
    obtain ⟨start, after, hstart, hyields, hafter⟩ := hitem x List.mem_cons_self first state _ hrest
    rw [h.round, h.congr hinput, Json.listing, List.append_assoc, hstart, List.foldlM_cons]
    change Yields (item state start >>= fun r => fold fuel false r.1 r.2) _ _
    cases hstep : step state x with
    | none =>
      rw [hstep] at hyields
      obtain ⟨stop, hstop⟩ := hyields
      rw [hstop]
      exact ⟨stop, rfl⟩
    | some state' =>
      rw [hstep] at hyields
      have hread : item state start = .ok (state', after) := hyields
      rw [hread]
      exact ih (fun y hy => hitem y (List.mem_cons_of_mem x hy)) (Nat.lt_of_succ_lt_succ hfuel)
        false _ hafter

/-- A loop takes all items of a row if it takes each of them. -/
theorem Loop.listing {fold : Nat → Bool → σ → Reader σ} {next : Bool → Reader Bool}
    {item : σ → Reader σ} {bracket : UInt8} (h : Loop fold next item bracket)
    (hclose : Closes close bracket) {add : σ → β → σ} {xs : List β}
    (hitem : ∀ x ∈ xs, ∀ first state rest, EndsNumber rest → ∃ start after,
      next first (comma first ++ put x ++ rest) = .ok (true, start) ∧
      item state start = .ok (add state x, after)
        ∧ skipSpace after = skipSpace rest)
    {fuel : Nat} (hfuel : xs.length < fuel) (first : Bool) (state : σ) {input : List UInt8}
    (hinput : skipSpace input = skipSpace (Json.listing put close first xs ++ rest)) :
    fold fuel first state input = .ok (xs.foldl add state, rest) := by
  have hall : xs.foldlM (fun state x => some (add state x)) state = some (xs.foldl add state) :=
    List.foldlM_pure
  have hyields : Yields (fold fuel first state input)
      (xs.foldlM (fun state x => some (add state x)) state) rest :=
    h.foldlM_listing hclose hitem hfuel first state hinput
  rwa [hall] at hyields

end

/-! ## Brackets -/

section
variable {layout : Layout} {depth : Nat}

theorem writeItems_eq (layout : Layout) (depth : Nat) (items : List Json) :
    writeItems layout depth items = items.map (write layout depth) := by
  induction items with
  | nil => rfl
  | cons v items ih => rw [writeItems, ih, List.map_cons]

theorem writeMembers_eq (layout : Layout) (depth : Nat) (members : List (String × Json)) :
    writeMembers layout depth members
      = members.map fun m => writeText m.1 ++ layout.colon ++ write layout depth m.2 := by
  induction members with
  | nil => rfl
  | cons m members ih =>
    obtain ⟨key, v⟩ := m
    rw [writeMembers, ih, List.map_cons]

/-- Items between commas are encoded as a listing of the encoded items. -/
theorem encode_intercalate {β : Type} (f : β → List Char) (behind : List Char) (x : β)
    (xs : List β) :
    encode ([','].intercalate ((x :: xs).map f) ++ behind)
      = listing (fun y => encode (f y)) (encode behind) true (x :: xs) := by
  induction xs generalizing x with
  | nil =>
    rw [List.map_cons, List.map_nil, List.intercalate_singleton, encode_append]
    rfl
  | cons y xs ih =>
    rw [List.map_cons, List.map_cons, List.intercalate_cons_cons, List.append_assoc,
      List.append_assoc, encode_append, encode_append, ← List.map_cons, ih]
    rfl

/-- What is written for a list or an object is a bracket, the items in a row and what closes
them. -/
theorem encode_bracket (hlayout : layout.Spacious) (depth : Nat) {β : Type} (f : β → List Char)
    (items : List β) {opening closing : Char} (hopening : opening.toNat < 128)
    (hclosing : closing.toNat < 128) (hspace : isSpace (byte closing) = false)
    (hends : EndsNumber [byte closing]) :
    ∃ close, Closes close (byte closing) ∧
      encode (bracket layout depth opening closing (items.map f))
      = byte opening :: listing (fun x => encode (layout.lineStart (depth + 1) ++ f x)) close true
        items := by
  have hlast : ∀ cs, encode (cs ++ [closing]) = encode cs ++ [byte closing] := by
    intro cs
    rw [encode_append, encode_cons, utf8EncodeChar_ascii hclosing]
    rfl
  cases items with
  | nil =>
    refine ⟨_, closes_blank blank_nil hspace hends, ?_⟩
    rw [List.map_nil, bracket, encode_cons, utf8EncodeChar_ascii hopening]
    exact congrArg (byte opening :: ·) (hlast [])
  | cons x items =>
    refine ⟨_, closes_blank (hlayout.lineStart depth) hspace hends, ?_⟩
    have hbracket : bracket layout depth opening closing ((x :: items).map f)
        = opening ::
          ([','].intercalate ((x :: items).map fun y => layout.lineStart (depth + 1) ++ f y)
            ++ (layout.lineStart depth ++ [closing])) := by
      simp [bracket, List.map_map, Function.comp_def]
    rw [hbracket, encode_cons, utf8EncodeChar_ascii hopening, encode_intercalate, hlast]
    rfl

end

/-! ## Values -/

/-- The bytes are read as a value wherever a value may stand, unless they are followed by a byte
that a number can go on with. -/
def ReadAs (depth : Nat) (bytes : List UInt8) (v : Json) : Prop :=
  ∀ {fuel : Nat} (rest : List UInt8), bytes.length < fuel → EndsNumber rest →
    ∃ after, readValue fuel depth (bytes ++ rest) = .ok (v, after) ∧
      skipSpace after = skipSpace rest

/-- A value that can be read back: each of its numbers is read from a text of its own, and lists and
objects are nested in it at most so deep. -/
inductive Readable : Nat → Json → Prop where
  | null {depth : Nat} : Readable depth .null
  | bool {depth : Nat} (b : Bool) : Readable depth (.bool b)
  | number {depth : Nat} {n : Number}
      (h : read? (String.ofList (writeNumber n)) = .ok (.number n)) :
    Readable depth (.number n)
  | text {depth : Nat} (s : String) : Readable depth (.text s)
  | array {depth : Nat} {items : List Json} (h : ∀ v ∈ items, Readable depth v) :
      Readable (depth + 1) (.array items)
  | object {depth : Nat} {members : List (String × Json)} (h : ∀ m ∈ members, Readable depth m.2) :
    Readable (depth + 1) (.object members)

section
variable {layout : Layout} {depth : Nat}

theorem readAs_null : ReadAs depth (encode writeNull) .null := by
  intro fuel rest _ _
  refine ⟨rest, ?_, rfl⟩
  cases depth <;> rfl

theorem readAs_bool (b : Bool) : ReadAs depth (encode (writeBool b)) (.bool b) := by
  intro fuel rest _ _
  refine ⟨rest, ?_, rfl⟩
  cases depth <;> cases b <;> rfl

/-- A number is read as itself within a text if it is as a text of its own. -/
theorem readAs_number {n : Number} (h : read? (String.ofList (writeNumber n)) = .ok (.number n)) :
    ReadAs depth (encode (writeNumber n)) (.number n) := by
  intro fuel rest _ hrest
  rw [← toList_toUTF8_ofList]
  exact readValue_number h fuel depth hrest

theorem encode_writeText (s : String) (rest : List UInt8) :
    encode (writeText s) ++ rest =
      byte '"' :: (encode (s.toList.flatMap escapeChar) ++ byte '"' :: rest) := by
  rw [writeText, encode_append, List.append_assoc]
  rfl

/-- A written string is read as itself. -/
theorem readAs_text (s : String) : ReadAs depth (encode (writeText s)) (.text s) := by
  intro fuel rest _ _
  have htext :
      ∀ nested, readValueWith nested (encode (writeText s) ++ rest) = .ok (.text s, rest) := by
    intro nested
    rw [encode_writeText]
    change (readText _).map _ = _
    rw [readText_escaped]
    rfl
  refine ⟨rest, ?_, rfl⟩
  cases depth <;> exact htext _

/-- Reads an item of a list onto the items before it, the last one first. -/
def addItem (value : Reader Json) (items : List Json) : Reader (List Json) := fun input => do
  let (v, rest) ← value input
  return (v :: items, rest)

/-- Reads a member of an object, behind the opening quote of its key, onto the members before it. -/
def addMember (value : Reader Json) (members : List (String × Json)) :
    Reader (List (String × Json)) := fun input => do
  let (key, rest) ← readText input
  let (_, rest) ← readColon rest
  let (v, rest) ← value rest
  return ((key, v) :: members, rest)

/-- A list is read as the items that are read up to its bracket. -/
theorem readValue_list {fuel : Nat} {input rest : List UInt8} {items : List Json}
    (h : foldItems .read (addItem (readValue fuel depth)) fuel true [] input
      = .ok (items.foldl (fun acc v => v :: acc) [], rest)) :
    readValue fuel (depth + 1) (byte '[' :: input) = .ok (.array items, rest) := by
  change (foldItems .read (addItem (readValue fuel depth)) fuel true [] input >>= fun r =>
    Except.ok (Json.array r.1.reverse, r.2)) = _
  rw [h, List.foldl_flip_cons_eq_append', List.append_nil]
  change Except.ok (Json.array items.reverse.reverse, rest) = _
  rw [List.reverse_reverse]

/-- An object is read as the members that are read up to its brace. -/
theorem readValue_object {fuel : Nat} {input rest : List UInt8} {members : List (String × Json)}
    (h : foldMembers .read (addMember (readValue fuel depth)) fuel true [] input
      = .ok (members.foldl (fun acc m => m :: acc) [], rest)) :
    readValue fuel (depth + 1) (byte '\x7b' :: input) = .ok (.object members, rest) := by
  change (foldMembers .read (addMember (readValue fuel depth)) fuel true [] input >>= fun r =>
    Except.ok (Json.object r.1.reverse, r.2)) = _
  rw [h, List.foldl_flip_cons_eq_append', List.append_nil]
  change Except.ok (Json.object members.reverse.reverse, rest) = _
  rw [List.reverse_reverse]

/-- An item of a list behind its comma and the white space before it. -/
theorem addItem_comma {text : List UInt8} {blank : List Char} {v : Json} {fuel : Nat}
    {rest : List UInt8} (hv : ReadAs depth text v) (hblank : Blank blank)
    (hfuel : text.length < fuel) (hrest : EndsNumber rest) (first : Bool) (items : List Json) :
    ∃ start after, nextItem .read first (comma first ++ (encode blank ++ text) ++ rest) =
      .ok (true, start)
      ∧ addItem (readValue fuel depth) items start = .ok (v :: items, after) ∧
      skipSpace after = skipSpace rest := by
  obtain ⟨after, hread, hafter⟩ := hv rest hfuel hrest
  obtain ⟨b, more, hskip, hb⟩ := exists_of_readValue hread
  have hstart : skipSpace (b :: more) = skipSpace (text ++ rest) := by
    rw [← hskip, skipSpace_skipSpace]
  have hskip' : skipSpace (encode blank ++ text ++ rest) = b :: more := by
    rw [List.append_assoc, hblank.skipSpace, hskip]
  refine ⟨b :: more, after, ?_, ?_, hafter⟩
  · rw [List.append_assoc]
    exact nextItem_comma hskip' hb first
  · rw [addItem, readValue_congr hstart, hread]
    rfl

/-- A list is read back if its items are. -/
theorem readAs_array (hlayout : layout.Spacious) {place : Nat} {items : List Json}
    (h : ∀ v ∈ items, ReadAs depth (encode (write layout (place + 1) v)) v) :
    ReadAs (depth + 1) (encode (write layout place (.array items))) (.array items) := by
  intro fuel rest hfuel hrest
  have hends : EndsNumber [byte ']'] := ⟨by decide, by decide, by decide, by decide⟩
  obtain ⟨close, hclose, htext⟩ := encode_bracket hlayout place (write layout (place + 1)) items
    (by decide : '['.toNat < 128) (by decide : ']'.toNat < 128) rfl hends
  rw [write, writeItems_eq, htext] at hfuel ⊢
  have hlength := Nat.lt_of_succ_lt (List.length_cons ▸ hfuel)
  have hcount :=
    length_le_listing (fun v => encode (layout.lineStart (place + 1) ++ write layout (place + 1) v))
    hclose.length_pos true items
  refine ⟨rest, ?_, rfl⟩
  refine readValue_list
    (foldItems_loop.listing hclose ?_ (Nat.lt_of_le_of_lt hcount hlength) true [] rfl)
  intro v hv first acc behind hbehind
  have hput := length_put_le_listing
    (fun v => encode (layout.lineStart (place + 1) ++ write layout (place + 1) v))
    close hv true
  rw [encode_append] at hput ⊢
  rw [List.length_append] at hput
  exact addItem_comma (h v hv) (hlayout.lineStart _) (by omega) hbehind first acc

/-- A member of an object behind its comma and the white space before it. -/
theorem addMember_comma (hlayout : layout.Spacious) {blank text : List Char} {m : String × Json}
    {fuel : Nat} {rest : List UInt8} (hm : ReadAs depth (encode text) m.2) (hblank : Blank blank)
    (hfuel : (encode text).length < fuel) (hrest : EndsNumber rest) (first : Bool)
    (members : List (String × Json)) :
    ∃ start after, nextKey .read first
          (comma first ++ (encode blank ++ encode (writeText m.1 ++ layout.colon ++ text)) ++
            rest) = .ok (true, start)
      ∧ addMember (readValue fuel depth) members start = .ok (m :: members, after)
      ∧ skipSpace after = skipSpace rest := by
  obtain ⟨after, hread, hafter⟩ := hm rest hfuel hrest
  obtain ⟨space, hspace, hcolon⟩ := hlayout.colon
  have hkey : skipSpace (encode blank ++ encode (writeText m.1 ++ layout.colon ++ text) ++ rest)
      = byte '"' :: (encode (m.1.toList.flatMap escapeChar)
          ++ byte '"' :: byte ':' :: (encode space ++ (encode text ++ rest))) := by
    rw [encode_append, encode_append, List.append_assoc, List.append_assoc, List.append_assoc,
      hblank.skipSpace, encode_writeText, hcolon]
    rfl
  have hvalue :
      readValue fuel depth (encode space ++ (encode text ++ rest)) = .ok (m.2, after) := by
    rw [readValue_congr (hspace.skipSpace _), hread]
  refine ⟨encode (m.1.toList.flatMap escapeChar) ++
    byte '"' :: byte ':' :: (encode space ++ (encode text ++ rest)), after, ?_, ?_, hafter⟩
  · rw [List.append_assoc]
    exact nextKey_comma hkey first
  · rw [addMember, readText_escaped]
    change (readValue fuel depth (encode space ++ (encode text ++ rest)) >>= fun r =>
      Except.ok ((m.1, r.1) :: members, r.2)) = _
    rw [hvalue]
    rfl

/-- An object is read back if the values of its members are. -/
theorem readAs_object (hlayout : layout.Spacious) {place : Nat} {members : List (String × Json)}
    (h : ∀ m ∈ members, ReadAs depth (encode (write layout (place + 1) m.2)) m.2) :
    ReadAs (depth + 1) (encode (write layout place (.object members))) (.object members) := by
  intro fuel rest hfuel hrest
  let memberText :=
    fun m : String × Json => writeText m.1 ++ layout.colon ++ write layout (place + 1) m.2
  have hends : EndsNumber [byte '\x7d'] := ⟨by decide, by decide, by decide, by decide⟩
  obtain ⟨close, hclose, htext⟩ := encode_bracket hlayout place memberText members
    (by decide : '\x7b'.toNat < 128) (by decide : '\x7d'.toNat < 128) rfl hends
  rw [write, writeMembers_eq, htext] at hfuel ⊢
  have hlength := Nat.lt_of_succ_lt (List.length_cons ▸ hfuel)
  have hcount := length_le_listing (fun m => encode (layout.lineStart (place + 1) ++ memberText m))
    hclose.length_pos true members
  refine ⟨rest, ?_, rfl⟩
  refine readValue_object
    (foldMembers_loop.listing hclose ?_ (Nat.lt_of_le_of_lt hcount hlength) true [] rfl)
  intro m hm first acc behind hbehind
  have hput := length_put_le_listing
    (fun m => encode (layout.lineStart (place + 1) ++ memberText m)) close hm true
  rw [encode_append] at hput ⊢
  rw [encode_append (_ ++ _), List.length_append, List.length_append] at hput
  exact addMember_comma hlayout (h m hm) (hlayout.lineStart _) (by omega) hbehind first acc

/-- What can be read back is, at every depth of a text and in every layout with white space only. -/
theorem Readable.readAs (hlayout : layout.Spacious) {v : Json} (h : Readable depth v)
    (place : Nat) :
    ReadAs depth (encode (write layout place v)) v := by
  induction h generalizing place with
  | null => exact readAs_null
  | bool b => exact readAs_bool b
  | number h => exact readAs_number h
  | text s => exact readAs_text s
  | array h ih => exact readAs_array hlayout fun v hv => ih v hv (place + 1)
  | object h ih => exact readAs_object hlayout fun m hm => ih m hm (place + 1)

/-- A value that can be read back is read back from what is written for it, in a layout that adds
nothing but white space. -/
theorem Readable.read?_write (hlayout : layout.Spacious) {v : Json} (h : Readable depthLimit v) :
    read? (String.ofList (write layout 0 v)) = .ok v := by
  rw [read?_eq_ok_iff, toList_toUTF8_ofList]
  obtain ⟨after, hread, hafter⟩ := h.readAs hlayout 0 [] (Nat.lt_succ_self _) trivial
  rw [List.append_nil] at hread
  exact ⟨after, hread, hafter⟩

theorem Readable.read?_pretty {v : Json} (h : Readable depthLimit v) : read? v.pretty = .ok v :=
  h.read?_write Layout.spacious_pretty

end

end ExtractionBench.Json
