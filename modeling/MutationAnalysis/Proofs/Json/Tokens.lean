/-
Strings and numbers that are written as JSON are read back.

A reader takes what it needs off the front of its input.  A string ends with its quote, so anything
may follow it; a number ends where what follows does not continue it (`EndsNumber`).

* `Json.readString?_textChars`: strings, by induction on their characters;
* `Json.readNumber?_toDigits`, `Json.readNumber?_decimal`: numbers, with and without an exponent.
-/
import MutationAnalysis.Json.Reader
import MutationAnalysis.Json.Writer
import Mathlib.Data.List.Basic
import Mathlib.Tactic.Common
import Mathlib.Tactic.IntervalCases

namespace MutationAnalysis.Json

/-! ### Strings -/

/-- The characters of a string, its quotes included. -/
def textChars (s : JsonText) : List Char :=
  '"' :: ((s.getD "").toList.flatMap (fun c => (writeChar c).toList) ++ ['"'])

theorem toList_foldl_writeChar (cs : List Char) (acc : String) :
    (cs.foldl (fun acc c => acc ++ writeChar c) acc).toList
      = acc.toList ++ cs.flatMap fun c => (writeChar c).toList := by
  induction cs generalizing acc with
  | nil => simp
  | cons c cs ih => simp [ih, List.append_assoc]

theorem toList_writeText (acc : String) (s : JsonText) :
    (writeText acc s).toList = acc.toList ++ textChars s := by
  simp [writeText, textChars, toList_foldl_writeChar]

theorem value?_digit {n : Nat} (h : n < 16) : Text.Hex.value? (Text.Hex.digit n) = some n := by
  interval_cases n <;> rfl

/-- The escape of a control character is read as that character. -/
theorem readString?_control {c : Char} (h : c.toNat < 0x20) (fuel : Nat) (s : JsonText)
    (rest : List Char) :
    readString? (fuel + 1) s ('\\' :: 'u' :: '0' :: '0' :: Text.Hex.digit (c.toNat / 16) ::
      Text.Hex.digit (c.toNat % 16) :: rest) = readString? fuel (pushText s c) rest := by
  have hunit : 0 * 4096 + 0 * 256 + c.toNat / 16 * 16 + c.toNat % 16 = c.toNat := by omega
  have hread : readUnit?
      ('0' :: '0' :: Text.Hex.digit (c.toNat / 16) :: Text.Hex.digit (c.toNat % 16) :: rest)
      = some (c.toNat, rest) := by
    have hzero : Text.Hex.value? '0' = some 0 := rfl
    simp only [readUnit?, hzero, value?_digit (show c.toNat / 16 < 16 by omega),
      value?_digit (show c.toNat % 16 < 16 by omega), Option.bind_eq_bind, Option.bind_some]
    rw [hunit]
    rfl
  have htake : takeUnit? s c.toNat rest = some (pushText s c, rest) := by
    unfold takeUnit?
    rw [if_neg (by simp [isHighSurrogate]; omega), if_neg (by simp [isLowSurrogate]; omega),
      Char.ofNat_toNat]
  simp only [readString?, hread, Option.bind_eq_bind, Option.bind_some, htake]

/-- A character that is written as it is. -/
theorem readString?_plain {c : Char} (hquote : c ≠ '"') (hslash : c ≠ '\\')
    (hcontrol : ¬ c.toNat < 0x20) (fuel : Nat) (s : JsonText) (rest : List Char) :
    readString? (fuel + 1) s (c :: rest) = readString? fuel (pushText s c) rest := by
  rw [readString?]
  · rw [if_neg hcontrol]
  · exact hquote
  · rintro - h
    exact absurd h hslash
  · rintro - - h
    exact absurd h hslash

/-- A character is read from its spelling. -/
theorem readString?_writeChar (c : Char) (fuel : Nat) (s : JsonText) (rest : List Char) :
    readString? (fuel + 1) s ((writeChar c).toList ++ rest)
      = readString? fuel (pushText s c) rest := by
  rw [writeChar]
  split_ifs with hquote hslash hfeed hreturn htab hback hform hcontrol
  · subst hquote; rfl
  · subst hslash; rfl
  · subst hfeed; rfl
  · subst hreturn; rfl
  · subst htab; rfl
  · subst hback; rfl
  · subst hform; rfl
  · rw [String.toList_append, String.toList_ofList, String.toList_ofList]
    exact readString?_control hcontrol fuel s rest
  · rw [String.toList_singleton]
    exact readString?_plain hquote hslash hcontrol fuel s rest

/-- A string is read from its characters and its closing quote. -/
theorem readString?_flatMap (cs rest : List Char) (text : String) {fuel : Nat}
    (h : cs.length < fuel) :
    readString? fuel (some text) (cs.flatMap (fun c => (writeChar c).toList) ++ '"' :: rest)
      = some (some (text ++ String.ofList cs), rest) := by
  induction cs generalizing text fuel with
  | nil =>
    obtain ⟨fuel, rfl⟩ := Nat.exists_eq_succ_of_ne_zero (Nat.ne_of_gt h)
    simp [readString?]
  | cons c cs ih =>
    obtain ⟨fuel, rfl⟩ := Nat.exists_eq_succ_of_ne_zero (Nat.ne_zero_of_lt h)
    have hpush : text.push c ++ String.ofList cs = text ++ String.ofList (c :: cs) := by
      apply String.toList_inj.mp
      simp
    rw [List.flatMap_cons, List.append_assoc, readString?_writeChar, pushText, Option.map_some,
      ih _ (Nat.lt_of_succ_lt_succ h), hpush]

theorem length_le_length_flatMap_writeChar (cs : List Char) :
    cs.length ≤ (cs.flatMap fun c => (writeChar c).toList).length := by
  have hpos : ∀ c, 0 < (writeChar c).toList.length := by
    intro c
    rw [writeChar]
    split_ifs <;> simp
  induction cs with
  | nil => exact Nat.le_refl 0
  | cons c cs ih =>
    have := hpos c
    rw [List.flatMap_cons, List.length_append, List.length_cons]
    omega

/-- The text of a string is read after its opening quote. -/
theorem readString?_textChars (text : String) (rest : List Char) {fuel : Nat}
    (h : (textChars (some text)).length ≤ fuel) :
    readString? fuel (some "") ((textChars (some text)).tail ++ rest) = some (some text, rest) := by
  have hlength := length_le_length_flatMap_writeChar text.toList
  rw [textChars, List.length_cons, List.length_append, Option.getD_some] at h
  rw [textChars, List.tail_cons, List.append_assoc, Option.getD_some]
  refine (readString?_flatMap text.toList rest "" (by omega)).trans ?_
  simp

/-! ### Numbers -/

/-- What follows does not continue a number. -/
def EndsNumber (rest : List Char) : Prop :=
  ∀ c ∈ rest.head?, isDigit c = false ∧ c ≠ '.' ∧ c ≠ 'e' ∧ c ≠ 'E'

theorem endsNumber_nil : EndsNumber [] := by simp [EndsNumber]

theorem endsNumber_cons {c : Char} (h : isDigit c = false ∧ c ≠ '.' ∧ c ≠ 'e' ∧ c ≠ 'E')
    (rest : List Char) : EndsNumber (c :: rest) := by
  simpa [EndsNumber] using h

theorem isDigit_of_mem_toDigits {n : Nat} {c : Char} (h : c ∈ Nat.toDigits 10 n) :
    isDigit c = true :=
  Nat.isDigit_of_mem_toDigits (by decide) (by decide) h

/-- The first digit of a number. -/
theorem toDigits_eq_cons (n : Nat) : ∃ c cs, Nat.toDigits 10 n = c :: cs ∧ isDigit c = true := by
  obtain ⟨c, cs, hdigits⟩ := List.exists_cons_of_ne_nil (Nat.toDigits_ne_nil (b := 10) (n := n))
  have hc : c ∈ Nat.toDigits 10 n := by
    rw [hdigits]
    exact List.mem_cons_self
  exact ⟨c, cs, hdigits, isDigit_of_mem_toDigits hc⟩

/-- All digits at the front are taken. -/
theorem readDigits_append {ds rest : List Char} (hds : ∀ c ∈ ds, isDigit c = true)
    (hrest : ∀ c ∈ rest.head?, isDigit c = false) (n count : Nat) :
    readDigits n count (ds ++ rest) = (Nat.ofDigitChars 10 ds n, count + ds.length, rest) := by
  induction ds generalizing n count with
  | nil =>
    cases rest with
    | nil => rfl
    | cons c rest =>
      have hc : isDigit c = false := hrest c rfl
      simp [readDigits, hc, Nat.ofDigitChars]
  | cons d ds ih =>
    have hd : isDigit d = true := hds d List.mem_cons_self
    rw [List.cons_append, readDigits, if_pos hd, ih fun c hc => hds c (List.mem_cons_of_mem _ hc),
      List.length_cons]
    simp only [Prod.mk.injEq, and_true]
    exact ⟨rfl, by omega⟩

theorem readDigits_toDigits (n : Nat) {rest : List Char}
    (hrest : ∀ c ∈ rest.head?, isDigit c = false) :
    readDigits 0 0 (Nat.toDigits 10 n ++ rest) = (n, (Nat.toDigits 10 n).length, rest) := by
  rw [readDigits_append (fun _ => isDigit_of_mem_toDigits) hrest, Nat.ofDigitChars_ten_toDigits,
    Nat.zero_add]

/-- The digits of a number other than zero begin with none. -/
theorem head?_toDigits_ne {n : Nat} (h : n ≠ 0) : (Nat.toDigits 10 n).head? ≠ some '0' := by
  induction n using Nat.strongRecOn with
  | _ n ih =>
    rcases Nat.lt_or_ge n 10 with hlt | hge
    · rw [Nat.toDigits_of_lt_base hlt]
      interval_cases n <;> simp_all [Nat.digitChar]
    · -- the first digit is that of the tenth part
      rw [Nat.toDigits_of_base_le (by decide) hge,
        List.head?_append_of_ne_nil _ Nat.toDigits_ne_nil]
      exact ih (n / 10) (by omega) (by omega)

/-- A whole part is read, whatever follows, if that is no digit. -/
theorem readWhole?_toDigits (n : Nat) {rest : List Char}
    (hrest : ∀ c ∈ rest.head?, isDigit c = false) :
    readWhole? (Nat.toDigits 10 n ++ rest) = some (n, rest) := by
  have hdigits := readDigits_toDigits n hrest
  have hpos : (Nat.toDigits 10 n).length ≠ 0 := Nat.ne_of_gt Nat.length_toDigits_pos
  rcases Nat.eq_zero_or_pos n with rfl | hn
  · cases rest with
    | nil => rfl
    | cons c rest =>
      have hc : isDigit c = false := hrest c rfl
      simp [Nat.toDigits_zero, readWhole?, hc]
  · -- the digits do not begin with zero, so they are read as they are
    unfold readWhole?
    split
    · rename_i heq
      have hhead := head?_toDigits_ne (Nat.ne_of_gt hn)
      rw [← List.head?_append_of_ne_nil _ Nat.toDigits_ne_nil, heq] at hhead
      exact absurd rfl hhead
    · rw [hdigits]
      split
      · rename_i heq
        exact absurd (congrArg (fun x => x.2.1) heq) hpos
      · rename_i heq
        obtain ⟨rfl, -, rfl⟩ : n = _ ∧ _ ∧ rest = _ := by simpa using heq
        rfl

theorem readFraction?_of_endsNumber (n : Nat) {rest : List Char} (h : ∀ c ∈ rest.head?, c ≠ '.') :
    readFraction? n rest = some (none, rest) := by
  cases rest with
  | nil => rfl
  | cons c rest =>
    unfold readFraction?
    split
    · rename_i heq
      exact absurd (List.cons.inj heq).1 (h c rfl)
    · rfl

theorem readExponent?_of_endsNumber {rest : List Char} (h : EndsNumber rest) :
    readExponent? rest = some (none, rest) := by
  cases rest with
  | nil => rfl
  | cons c rest =>
    have hmark : ∀ d, d = 'e' ∨ d = 'E' → c ≠ d := by
      rintro d (rfl | rfl)
      · exact (h c rfl).2.2.1
      · exact (h c rfl).2.2.2
    -- every other pattern begins with a mark
    unfold readExponent?
    split <;> first
      | rfl
      | rename_i heq
        exact absurd (List.cons.inj heq).1 (hmark _ (by decide))

/-- The digits of an exponent that has no sign. -/
theorem readExponent?_unsigned {c : Char} (hc : isDigit c = true) (cs : List Char) :
    readExponent? ('e' :: c :: cs) = readExponentDigits? false (c :: cs) := by
  have hminus : c ≠ '-' := by rintro rfl; exact absurd hc (by decide)
  have hplus : c ≠ '+' := by rintro rfl; exact absurd hc (by decide)
  rw [readExponent?]
  · rintro cs h
    exact absurd (List.cons.inj h).1 hminus
  · rintro cs h
    exact absurd (List.cons.inj h).1 hplus

theorem readExponentDigits?_toDigits (negate : Bool) (n : Nat) {rest : List Char}
    (h : EndsNumber rest) :
    readExponentDigits? negate (Nat.toDigits 10 n ++ rest)
      = some (some (if negate then -(n : Int) else n), rest) := by
  have hpos : (Nat.toDigits 10 n).length ≠ 0 := Nat.ne_of_gt Nat.length_toDigits_pos
  rw [readExponentDigits?, readDigits_toDigits n fun c hc => (h c hc).1]
  split
  · rename_i heq
    exact absurd (congrArg (fun x => x.2.1) heq) hpos
  · rename_i heq
    obtain ⟨rfl, -, rfl⟩ : n = _ ∧ _ ∧ rest = _ := by simpa using heq
    rfl

/-- An exponent is read after its mark. -/
theorem readExponent?_toString (e : Int) {rest : List Char} (h : EndsNumber rest) :
    readExponent? ('e' :: ((toString e).toList ++ rest)) = some (some e, rest) := by
  cases e with
  | ofNat n =>
    have hwritten : (toString (Int.ofNat n)).toList = Nat.toDigits 10 n := Nat.toList_repr
    obtain ⟨c, cs, hdigits, hc⟩ := toDigits_eq_cons n
    rw [hwritten, hdigits, List.cons_append, readExponent?_unsigned hc,
      ← List.cons_append, ← hdigits, readExponentDigits?_toDigits false n h]
    rfl
  | negSucc n =>
    have hwritten : (toString (Int.negSucc n)).toList = '-' :: Nat.toDigits 10 (n + 1) := by
      show ("-" ++ (n + 1).repr).toList = _
      rw [String.toList_append, Nat.toList_repr]
      rfl
    rw [hwritten, List.cons_append, readExponent?, readExponentDigits?_toDigits true (n + 1) h]
    rfl

/-- A number of digits alone. -/
theorem readNumber?_toDigits (negate : Bool) (n : Nat) {rest : List Char} (h : EndsNumber rest) :
    readNumber? negate (Nat.toDigits 10 n ++ rest)
      = some (if negate then (if n = 0 then .decimal 0 0 else .negative n) else .natural n,
        rest) := by
  simp only [readNumber?, readWhole?_toDigits n fun c hc => (h c hc).1, Option.bind_eq_bind,
    Option.bind_some, readFraction?_of_endsNumber n fun c hc => (h c hc).2.1,
    readExponent?_of_endsNumber h]
  rfl

/-- A number with an exponent. -/
theorem readNumber?_decimal (m : Nat) (e : Int) {rest : List Char} (h : EndsNumber rest) :
    readNumber? false (Nat.toDigits 10 m ++ 'e' :: ((toString e).toList ++ rest))
      = some (.decimal m e, rest) := by
  have hmark : ∀ cs c, c ∈ ('e' :: cs).head? → c = 'e' := by simp
  have hexponent := readExponent?_toString e h
  generalize (toString e).toList ++ rest = after at hexponent ⊢
  have hwhole : readWhole? (Nat.toDigits 10 m ++ 'e' :: after) = some (m, 'e' :: after) :=
    readWhole?_toDigits m fun c hc => by rw [hmark _ c hc]; rfl
  have hfraction : readFraction? m ('e' :: after) = some (none, 'e' :: after) :=
    readFraction?_of_endsNumber m fun c hc => by rw [hmark _ c hc]; decide
  simp only [readNumber?, hwhole, hfraction, hexponent, Option.bind_eq_bind, Option.bind_some]
  simp

end MutationAnalysis.Json
