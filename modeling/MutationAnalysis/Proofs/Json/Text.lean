/-
JSON text that is written is read back.

The writer puts no blanks between the parts of a value, so what it writes is the value's
characters, one after the other (`Json.chars`).  The reader takes the characters of a value off the
front of its input and leaves what follows, as long as that does not continue a number, and it
needs no more fuel than there are characters.

* `Json.toList_writeOn`: what the writer appends;
* `Json.readsBack`: values, items and fields together, by induction on the fuel;
* `Json.parse?_write`: whole texts.
-/
import MutationAnalysis.Proofs.Json.Tokens

namespace MutationAnalysis.Json

/-! ### What is written -/

mutual
/-- The characters of a value. -/
def chars : Json → List Char
  | .null => ['n', 'u', 'l', 'l']
  | .bool true => ['t', 'r', 'u', 'e']
  | .bool false => ['f', 'a', 'l', 's', 'e']
  | .number n => (writeNumber n).toList
  | .string s => textChars s
  | .array [] => ['[', ']']
  | .array (v :: rest) => '[' :: (v.chars ++ moreItems rest)
  | .object [] => ['{', '}']
  | .object ((k, v) :: rest) => '{' :: (textChars k ++ ':' :: (v.chars ++ moreFields rest))

/-- The characters of an array after one of its items. -/
def moreItems : List Json → List Char
  | [] => [']']
  | v :: rest => ',' :: (v.chars ++ moreItems rest)

/-- The characters of an object after one of its fields. -/
def moreFields : List (JsonText × Json) → List Char
  | [] => ['}']
  | (k, v) :: rest => ',' :: (textChars k ++ ':' :: (v.chars ++ moreFields rest))
end

mutual
theorem toList_writeOn : ∀ (v : Json) (acc : String), (writeOn acc v).toList = acc.toList ++ v.chars
  | .null, acc => by simp [writeOn, chars]
  | .bool true, acc => by simp [writeOn, chars]
  | .bool false, acc => by simp [writeOn, chars]
  | .number n, acc => by simp [writeOn, chars]
  | .string s, acc => by rw [writeOn, toList_writeText, chars]
  | .array [], acc => by simp [writeOn, writeItemsOn, chars]
  | .array (v :: rest), acc => by
    rw [writeOn, writeItemsOn, toList_writeItemsOn, if_pos rfl, toList_writeOn v, chars]
    simp
  | .object [], acc => by simp [writeOn, writeFieldsOn, chars]
  | .object ((k, v) :: rest), acc => by
    rw [writeOn, writeFieldsOn, toList_writeFieldsOn, if_pos rfl, toList_writeOn v,
      String.toList_append, toList_writeText, chars]
    simp

theorem toList_writeItemsOn : ∀ (items : List Json) (acc : String),
    (writeItemsOn acc false items ++ "]").toList = acc.toList ++ moreItems items
  | [], acc => by simp [writeItemsOn, moreItems]
  | v :: rest, acc => by
    rw [writeItemsOn, toList_writeItemsOn, if_neg Bool.false_ne_true, toList_writeOn v, moreItems]
    simp

theorem toList_writeFieldsOn : ∀ (fields : List (JsonText × Json)) (acc : String),
    (writeFieldsOn acc false fields ++ "\x7d").toList = acc.toList ++ moreFields fields
  | [], acc => by simp [writeFieldsOn, moreFields]
  | (k, v) :: rest, acc => by
    rw [writeFieldsOn, toList_writeFieldsOn, if_neg Bool.false_ne_true, toList_writeOn v,
      String.toList_append, toList_writeText, moreFields]
    simp
end

/-! ### Values -/

mutual
/-- Every string of the value spells a text, and none of its numbers is minus zero. -/
def isWritable : Json → Bool
  | .number (.negative n) => n != 0
  | .string s => s.isSome
  | .array items => areWritable items
  | .object fields => fieldsAreWritable fields
  | _ => true

def areWritable : List Json → Bool
  | [] => true
  | v :: rest => v.isWritable && areWritable rest

def fieldsAreWritable : List (JsonText × Json) → Bool
  | [] => true
  | (k, v) :: rest => k.isSome && v.isWritable && fieldsAreWritable rest
end

@[simp] theorem isWritable_text (s : String) : (text s).isWritable = true := rfl

@[simp] theorem isWritable_nat (n : Nat) : (nat n).isWritable = true := rfl

@[simp] theorem isWritable_bool (b : Bool) : (Json.bool b).isWritable = true := rfl

@[simp] theorem isWritable_int (i : Int) : (int i).isWritable = true := by
  cases i <;> simp [int, isWritable]

@[simp] theorem isWritable_orNull {α : Type} (f : α → Json) (a : Option α) :
    (orNull f a).isWritable = a.all fun a => (f a).isWritable := by
  cases a <;> rfl

@[simp] theorem isWritable_listOf {α : Type} (f : α → Json) (items : List α) :
    (listOf f items).isWritable = items.all fun a => (f a).isWritable := by
  rw [listOf, isWritable]
  induction items with
  | nil => rfl
  | cons a items ih => rw [List.map_cons, areWritable, List.all_cons, ih]

@[simp] theorem isWritable_record (fields : List (String × Json)) :
    (record fields).isWritable = fields.all fun f => f.2.isWritable := by
  rw [record, isWritable]
  induction fields with
  | nil => rfl
  | cons f fields ih => simp [fieldsAreWritable, ih]

theorem skipBlanks_of_not_isBlank {c : Char} (h : isBlank c = false) (cs : List Char) :
    skipBlanks (c :: cs) = c :: cs := by
  simp [skipBlanks, h]

theorem isBlank_of_isDigit {c : Char} (h : isDigit c = true) : isBlank c = false := by
  have hspace : c ≠ ' ' := by rintro rfl; exact absurd h (by decide)
  have htab : c ≠ '\t' := by rintro rfl; exact absurd h (by decide)
  have hfeed : c ≠ '\n' := by rintro rfl; exact absurd h (by decide)
  have hreturn : c ≠ '\r' := by rintro rfl; exact absurd h (by decide)
  simp [isBlank, hspace, htab, hfeed, hreturn]

/-- A value begins neither with a blank nor with what closes an array. -/
theorem chars_eq_cons (v : Json) : ∃ c cs, v.chars = c :: cs ∧ isBlank c = false ∧ c ≠ ']' := by
  match v with
  | .null => exact ⟨_, _, rfl, rfl, by decide⟩
  | .bool true => exact ⟨_, _, rfl, rfl, by decide⟩
  | .bool false => exact ⟨_, _, rfl, rfl, by decide⟩
  | .string _ => exact ⟨_, _, rfl, rfl, by decide⟩
  | .array [] => exact ⟨_, _, rfl, rfl, by decide⟩
  | .array (_ :: _) => exact ⟨_, _, rfl, rfl, by decide⟩
  | .object [] => exact ⟨_, _, rfl, rfl, by decide⟩
  | .object (_ :: _) => exact ⟨_, _, rfl, rfl, by decide⟩
  | .number (.negative n) =>
      exact ⟨'-', (toString n).toList, by simp [chars, writeNumber], rfl, by decide⟩
  | .number (.natural n) =>
    obtain ⟨c, cs, heq, hc⟩ := toDigits_eq_cons n
    exact ⟨c, cs, Nat.toList_repr.trans heq, isBlank_of_isDigit hc, by
      rintro rfl; exact absurd hc (by decide)⟩
  | .number (.decimal m e) =>
    obtain ⟨c, cs, heq, hc⟩ := toDigits_eq_cons m
    refine ⟨c, cs ++ 'e' :: (toString e).toList, ?_, isBlank_of_isDigit hc, by
      rintro rfl; exact absurd hc (by decide)⟩
    have hwritten : (toString m).toList = c :: cs := Nat.toList_repr.trans heq
    rw [chars, writeNumber, String.toList_append, String.toList_append, hwritten]
    simp

theorem skipBlanks_chars (v : Json) (rest : List Char) :
    skipBlanks (v.chars ++ rest) = v.chars ++ rest := by
  obtain ⟨c, cs, heq, hblank, -⟩ := v.chars_eq_cons
  rw [heq, List.cons_append, skipBlanks_of_not_isBlank hblank]

theorem length_chars_pos (v : Json) : 0 < v.chars.length := by
  obtain ⟨c, cs, heq, -⟩ := v.chars_eq_cons
  rw [heq, List.length_cons]
  exact Nat.succ_pos _

/-- Digits are read as a number. -/
theorem readValue?_digit {c : Char} (hc : isDigit c = true) (fuel : Nat) (cs : List Char) :
    readValue? (fuel + 1) (c :: cs)
      = (readNumber? false (c :: cs)).map fun (n, rest) => (.number n, rest) := by
  have hother : ∀ d, isDigit d = false → c ≠ d := by
    rintro d hd rfl
    exact absurd hc (by simp [hd])
  rw [readValue?, skipBlanks_of_not_isBlank (isBlank_of_isDigit hc)]
  -- no other value begins with a digit
  split <;> first
    | rfl
    | rename_i heq
      exact absurd (List.cons.inj heq).1 (hother _ rfl)

/-- An array with items is read item by item. -/
theorem readValue?_array (v : Json) (fuel : Nat) (rest : List Char) :
    readValue? (fuel + 1) ('[' :: (v.chars ++ rest)) = readItems? fuel [] (v.chars ++ rest) := by
  obtain ⟨c, cs, heq, hblank, hclose⟩ := v.chars_eq_cons
  have hskip := skipBlanks_chars v rest
  rw [heq, List.cons_append] at hskip ⊢
  simp only [readValue?, skipBlanks_of_not_isBlank (c := '[') rfl, hskip]
  split
  · rename_i h
    exact absurd (List.cons.inj h).1 hclose
  · rfl

/-- An object with fields is read field by field. -/
theorem readValue?_object (k : JsonText) (fuel : Nat) (rest : List Char) :
    readValue? (fuel + 1) ('{' :: (textChars k ++ rest))
      = readFields? fuel [] (textChars k ++ rest) := by
  rw [readValue?, skipBlanks_of_not_isBlank rfl]
  rfl

/-- With so much fuel, all that has no more characters is read back. -/
structure ReadsBack (fuel : Nat) : Prop where
  value : ∀ (v : Json) (rest : List Char), v.isWritable = true → v.chars.length ≤ fuel →
    EndsNumber rest → readValue? fuel (v.chars ++ rest) = some (v, rest)
  items : ∀ (before : List Json) (v : Json) (more : List Json) (rest : List Char),
    v.isWritable = true →
    areWritable more = true → v.chars.length + (moreItems more).length ≤ fuel →
    readItems? fuel before (v.chars ++ (moreItems more ++ rest))
      = some (.array (before.reverse ++ v :: more), rest)
  fields : ∀ (before : List (JsonText × Json)) (k : String) (v : Json)
    (more : List (JsonText × Json))
    (rest : List Char), v.isWritable = true → fieldsAreWritable more = true →
    (textChars (some k)).length + v.chars.length + (moreFields more).length ≤ fuel →
    readFields? fuel before (textChars (some k) ++ ':' :: (v.chars ++ (moreFields more ++ rest)))
      = some (.object (before.reverse ++ (some k, v) :: more), rest)

/-- A number is read back. -/
theorem readValue?_writeNumber (n : JsonNumber) (fuel : Nat) {rest : List Char}
    (hwritable : (Json.number n).isWritable = true) (h : EndsNumber rest) :
    readValue? (fuel + 1) ((writeNumber n).toList ++ rest) = some (.number n, rest) := by
  cases n with
  | natural n =>
    obtain ⟨c, cs, hdigits, hc⟩ := toDigits_eq_cons n
    have hwritten : (writeNumber (.natural n)).toList = Nat.toDigits 10 n := Nat.toList_repr
    have hread := readNumber?_toDigits false n h
    rw [hdigits, List.cons_append] at hread
    rw [hwritten, hdigits, List.cons_append, readValue?_digit hc, hread]
    rfl
  | negative n =>
    -- the sign is read by itself; zero never has one
    have hn : n ≠ 0 := by simpa [isWritable] using hwritable
    have hwritten : (writeNumber (.negative n)).toList = '-' :: Nat.toDigits 10 n := by
      show ("-" ++ n.repr).toList = _
      rw [String.toList_append, Nat.toList_repr]
      rfl
    have hread := readNumber?_toDigits true n h
    rw [if_pos rfl, if_neg hn] at hread
    rw [hwritten, List.cons_append, readValue?, skipBlanks_of_not_isBlank rfl]
    show (readNumber? true (Nat.toDigits 10 n ++ rest)).map _ = _
    rw [hread]
    rfl
  | decimal m e =>
    obtain ⟨c, cs, hdigits, hc⟩ := toDigits_eq_cons m
    have hwritten : (writeNumber (.decimal m e)).toList ++ rest
        = Nat.toDigits 10 m ++ 'e' :: ((toString e).toList ++ rest) := by
      simp [writeNumber, String.toList_append]
    have hread := readNumber?_decimal m e h
    rw [hdigits, List.cons_append] at hread
    rw [hwritten, hdigits, List.cons_append, readValue?_digit hc, hread]
    rfl

theorem endsNumber_moreItems (items : List Json) (rest : List Char) :
    EndsNumber (moreItems items ++ rest) := by
  cases items with
  | nil => exact endsNumber_cons (by decide) _
  | cons v items => exact endsNumber_cons (by decide) _

theorem endsNumber_moreFields (fields : List (JsonText × Json)) (rest : List Char) :
    EndsNumber (moreFields fields ++ rest) := by
  cases fields with
  | nil => exact endsNumber_cons (by decide) _
  | cons f fields => exact endsNumber_cons (by decide) _

namespace ReadsBack

variable {fuel : Nat}

theorem value_succ (ih : ReadsBack fuel) (v : Json) (rest : List Char) (hv : v.isWritable = true)
    (hlength : v.chars.length ≤ fuel + 1) (hrest : EndsNumber rest) :
    readValue? (fuel + 1) (v.chars ++ rest) = some (v, rest) := by
  -- a value takes one unit of fuel, and its parts are shorter, so what is left is enough for them
  match v with
  | .null => rfl
  | .bool true => rfl
  | .bool false => rfl
  | .number n => exact readValue?_writeNumber n fuel hv hrest
  | .string none => simp [isWritable] at hv
  | .string (some s) =>
    have hread := readString?_textChars s rest hlength
    rw [chars, textChars, List.cons_append, readValue?, skipBlanks_of_not_isBlank rfl]
    rw [textChars, List.tail_cons] at hread
    show (readString? (fuel + 1) (some "") _).map _ = _
    rw [hread]
    rfl
  | .array [] => rfl
  | .array (w :: more) =>
    simp only [isWritable, areWritable, Bool.and_eq_true] at hv
    simp only [chars, List.length_cons, List.length_append] at hlength
    rw [chars, List.cons_append, List.append_assoc, readValue?_array,
      ih.items [] w more rest hv.1 hv.2 (by omega)]
    rfl
  | .object [] => rfl
  | .object ((none, _) :: _) => simp [isWritable, fieldsAreWritable] at hv
  | .object ((some k, w) :: more) =>
    simp only [isWritable, fieldsAreWritable, Bool.and_eq_true] at hv
    simp only [chars, List.length_cons, List.length_append] at hlength
    rw [chars, List.cons_append, List.append_assoc, List.cons_append, List.append_assoc,
      readValue?_object, ih.fields [] k w more rest hv.1.2 hv.2 (by omega)]
    rfl

theorem items_succ (ih : ReadsBack fuel) (before : List Json) (v : Json) (more : List Json)
    (rest : List Char) (hv : v.isWritable = true) (hmore : areWritable more = true)
    (hlength : v.chars.length + (moreItems more).length ≤ fuel + 1) :
    readItems? (fuel + 1) before (v.chars ++ (moreItems more ++ rest))
      = some (.array (before.reverse ++ v :: more), rest) := by
  have hpos : 0 < (moreItems more).length := by cases more <;> simp [moreItems]
  -- what follows an item is a comma or a bracket, which continues no number
  have hvalue := ih.value v (moreItems more ++ rest) hv (by omega) (endsNumber_moreItems more rest)
  simp only [readItems?, hvalue, Option.bind_eq_bind, Option.bind_some]
  cases more with
  | nil =>
    rw [moreItems, List.cons_append, skipBlanks_of_not_isBlank rfl]
    simp
  | cons w more =>
    have hvpos := v.length_chars_pos
    simp only [areWritable, Bool.and_eq_true] at hmore
    simp only [moreItems, List.length_cons, List.length_append] at hlength
    rw [moreItems, List.cons_append, List.append_assoc, skipBlanks_of_not_isBlank rfl]
    show readItems? fuel (v :: before) _ = _
    rw [ih.items (v :: before) w more rest hmore.1 hmore.2 (by omega), List.reverse_cons,
      List.append_assoc]
    rfl

theorem fields_succ (ih : ReadsBack fuel) (before : List (JsonText × Json)) (k : String) (v : Json)
    (more : List (JsonText × Json)) (rest : List Char) (hv : v.isWritable = true)
    (hmore : fieldsAreWritable more = true)
    (hlength : (textChars (some k)).length + v.chars.length + (moreFields more).length ≤ fuel + 1) :
    readFields? (fuel + 1) before
      (textChars (some k) ++ ':' :: (v.chars ++ (moreFields more ++ rest)))
      = some (.object (before.reverse ++ (some k, v) :: more), rest) := by
  -- neither the key nor what follows is empty, so fuel is left after each
  have hpos : 0 < (moreFields more).length := by
    rcases more with - | ⟨⟨_, _⟩, _⟩ <;> simp [moreFields]
  have hkpos : 0 < (textChars (some k)).length := by simp [textChars]
  have hkey : readString? (fuel + 1) (some "") ((textChars (some k)).tail
      ++ ':' :: (v.chars ++ (moreFields more ++ rest)))
        = some (some k, ':' :: (v.chars ++ (moreFields more ++ rest))) :=
    readString?_textChars k _ (by omega)
  have hvalue := ih.value v (moreFields more ++ rest) hv (by omega)
    (endsNumber_moreFields more rest)
  have hcolon := skipBlanks_of_not_isBlank (c := ':') rfl (v.chars ++ (moreFields more ++ rest))
  rw [textChars, List.tail_cons] at hkey
  rw [textChars, List.cons_append, readFields?, skipBlanks_of_not_isBlank rfl]
  simp only [hkey, hcolon, hvalue, Option.bind_eq_bind, Option.bind_some]
  -- the closing brace comes next, or a comma and another field
  cases more with
  | nil =>
    rw [moreFields, List.cons_append, skipBlanks_of_not_isBlank rfl]
    simp
  | cons f more =>
    obtain ⟨key, w⟩ := f
    have hvpos := v.length_chars_pos
    simp only [fieldsAreWritable, Bool.and_eq_true] at hmore
    obtain ⟨⟨hsome, hw⟩, hmore⟩ := hmore
    obtain ⟨j, rfl⟩ := Option.isSome_iff_exists.mp hsome
    simp only [moreFields, List.length_cons, List.length_append] at hlength
    rw [moreFields, List.cons_append, List.append_assoc, List.cons_append, List.append_assoc,
      skipBlanks_of_not_isBlank rfl]
    show readFields? fuel ((some k, v) :: before) _ = _
    rw [ih.fields ((some k, v) :: before) j w more rest hw hmore (by omega), List.reverse_cons,
      List.append_assoc]
    rfl

end ReadsBack

/-- So much fuel is enough: every reader leaves the others less to read than it was given itself. -/
theorem readsBack (fuel : Nat) : ReadsBack fuel := by
  induction fuel with
  | zero =>
    -- no value is without characters
    refine ⟨fun v _ _ h _ => ?_, fun _ v _ _ _ _ h => ?_, fun _ _ v _ _ _ _ h => ?_⟩ <;>
    · have := v.length_chars_pos
      omega
  | succ fuel ih => exact ⟨ih.value_succ, ih.items_succ, ih.fields_succ⟩

/-- What is written is read back. -/
theorem parse?_write {v : Json} (h : v.isWritable = true) : parse? v.write = some v := by
  have hwrite : v.write.toList = v.chars := toList_writeOn v ""
  have hread := (readsBack (v.chars.length + 1)).value v [] h (Nat.le_succ _) endsNumber_nil
  rw [List.append_nil] at hread
  simp only [parse?, hwrite, hread, Option.bind_eq_bind, Option.bind_some]
  rfl

end MutationAnalysis.Json
