/-
Reading JSON text.

`Json.parse?` reads one value with only blanks (space, tab, line feed, carriage return) around it.
The grammar is strict: no leading zeros, no byte order mark, no unescaped control characters in
strings, no trailing commas.  The readers take what they need off the front of the input; the fuel
of the nested ones is the length of the input, of which every call uses at least one character.
-/
import MutationAnalysis.Json.Basic
import MutationAnalysis.Text.Hex

namespace MutationAnalysis.Json

def isBlank (c : Char) : Bool :=
  c == ' ' || c == '\t' || c == '\n' || c == '\r'

def skipBlanks (cs : List Char) : List Char :=
  cs.dropWhile isBlank

def isDigit (c : Char) : Bool :=
  '0' ≤ c && c ≤ '9'

/-- Digits at the front, with the number they make and how many they are. -/
def readDigits (n count : Nat) : List Char → Nat × Nat × List Char
  | [] => (n, count, [])
  | c :: rest =>
    if isDigit c then readDigits (10 * n + (c.toNat - 48)) (count + 1) rest
    else (n, count, c :: rest)

/-- The whole part: a zero alone, or digits that do not start with zero. -/
def readWhole? : List Char → Option (Nat × List Char)
  | '0' :: c :: rest => if isDigit c then none else some (0, c :: rest)
  | cs =>
    match readDigits 0 0 cs with
    | (_, 0, _) => none
    | (n, _, rest) => some (n, rest)

/-- The part after the point, if there is one: the number continued and how many places. -/
def readFraction? (n : Nat) : List Char → Option (Option (Nat × Nat) × List Char)
  | '.' :: cs =>
    match readDigits n 0 cs with
    | (_, 0, _) => none
    | (m, places, rest) => some (some (m, places), rest)
  | cs => some (none, cs)

/-- The digits of an exponent after its sign. -/
def readExponentDigits? (negate : Bool) (cs : List Char) : Option (Option Int × List Char) :=
  match readDigits 0 0 cs with
  | (_, 0, _) => none
  | (e, _, rest) => some (some (if negate then -(e : Int) else e), rest)

def readExponent? : List Char → Option (Option Int × List Char)
  | 'e' :: '-' :: cs | 'E' :: '-' :: cs => readExponentDigits? true cs
  | 'e' :: '+' :: cs | 'E' :: '+' :: cs => readExponentDigits? false cs
  | 'e' :: cs | 'E' :: cs => readExponentDigits? false cs
  | cs => some (none, cs)

/-- A number after its optional minus sign. -/
def readNumber? (negate : Bool) (cs : List Char) : Option (JsonNumber × List Char) := do
  let (whole, cs) ← readWhole? cs
  let (fraction, cs) ← readFraction? whole cs
  let (exponent, cs) ← readExponent? cs
  let number := match fraction, exponent with
    | none, none =>
      if negate then (if whole = 0 then .decimal 0 0 else .negative whole) else .natural whole
    | fraction, exponent =>
      let (m, places) := fraction.getD (whole, 0)
      .decimal m (exponent.getD 0 - places)
  return (number, cs)

/-- Four hexadecimal digits. -/
def readUnit? : List Char → Option (Nat × List Char)
  | a :: b :: c :: d :: rest => do
    let a ← Text.Hex.value? a
    let b ← Text.Hex.value? b
    let c ← Text.Hex.value? c
    let d ← Text.Hex.value? d
    return (a * 4096 + b * 256 + c * 16 + d, rest)
  | _ => none

/-- The character of an escape of one letter. -/
def simpleEscape? : Char → Option Char
  | '"' => some '"'
  | '\\' => some '\\'
  | '/' => some '/'
  | 'b' => some '\x08'
  | 'f' => some '\x0c'
  | 'n' => some '\n'
  | 'r' => some '\r'
  | 't' => some '\t'
  | _ => none

def isHighSurrogate (unit : Nat) : Bool := 0xD800 ≤ unit && unit < 0xDC00

def isLowSurrogate (unit : Nat) : Bool := 0xDC00 ≤ unit && unit < 0xE000

def pushText (s : JsonText) (c : Char) : JsonText :=
  s.map (·.push c)

/-- Text of a code unit from the escape just read, with the rest of the string.  A high surrogate
takes the low one whose escape follows; half a pair leaves no text. -/
def takeUnit? (s : JsonText) (unit : Nat) (rest : List Char) : Option (JsonText × List Char) :=
  if isHighSurrogate unit then
    match rest with
    | '\\' :: 'u' :: more => do
      let (second, after) ← readUnit? more
      if isLowSurrogate second then
        let c := Char.ofNat (0x10000 + (unit - 0xD800) * 1024 + (second - 0xDC00))
        return (pushText s c, after)
      else return (none, rest)
    | _ => some (none, rest)
  else if isLowSurrogate unit then some (none, rest)
  else some (pushText s (Char.ofNat unit), rest)

/-- A string after its opening quote. -/
def readString? : Nat → JsonText → List Char → Option (JsonText × List Char)
  | 0, _, _ => none
  | fuel + 1, s, cs =>
    match cs with
    | [] => none
    | '"' :: rest => some (s, rest)
    | '\\' :: 'u' :: rest => do
      let (unit, rest) ← readUnit? rest
      let (s, rest) ← takeUnit? s unit rest
      readString? fuel s rest
    | '\\' :: c :: rest => do
      let c ← simpleEscape? c
      readString? fuel (pushText s c) rest
    | c :: rest => if c.toNat < 0x20 then none else readString? fuel (pushText s c) rest

mutual
/-- A value, blanks before it skipped. -/
def readValue? : Nat → List Char → Option (Json × List Char)
  | 0, _ => none
  | fuel + 1, cs =>
    match skipBlanks cs with
    | 'n' :: 'u' :: 'l' :: 'l' :: rest => some (.null, rest)
    | 't' :: 'r' :: 'u' :: 'e' :: rest => some (.bool true, rest)
    | 'f' :: 'a' :: 'l' :: 's' :: 'e' :: rest => some (.bool false, rest)
    | '"' :: rest => (readString? (fuel + 1) (some "") rest).map fun (s, rest) => (.string s, rest)
    | '[' :: rest =>
      match skipBlanks rest with
      | ']' :: rest => some (.array [], rest)
      | rest => readItems? fuel [] rest
    | '{' :: rest =>
      match skipBlanks rest with
      | '}' :: rest => some (.object [], rest)
      | rest => readFields? fuel [] rest
    | '-' :: rest => (readNumber? true rest).map fun (n, rest) => (.number n, rest)
    | rest => (readNumber? false rest).map fun (n, rest) => (.number n, rest)

/-- The items of an array that has at least one more; those before it are given in reverse. -/
def readItems? : Nat → List Json → List Char → Option (Json × List Char)
  | 0, _, _ => none
  | fuel + 1, before, cs => do
    let (v, rest) ← readValue? fuel cs
    match skipBlanks rest with
    | ',' :: rest => readItems? fuel (v :: before) rest
    | ']' :: rest => some (.array (v :: before).reverse, rest)
    | _ => none

/-- The fields of an object that has at least one more; those before it are given in reverse. -/
def readFields? : Nat → List (JsonText × Json) → List Char → Option (Json × List Char)
  | 0, _, _ => none
  | fuel + 1, before, cs =>
    match skipBlanks cs with
    | '"' :: rest => do
      let (key, rest) ← readString? (fuel + 1) (some "") rest
      match skipBlanks rest with
      | ':' :: rest =>
        let (v, rest) ← readValue? fuel rest
        match skipBlanks rest with
        | ',' :: rest => readFields? fuel ((key, v) :: before) rest
        | '}' :: rest => some (.object ((key, v) :: before).reverse, rest)
        | _ => none
      | _ => none
    | _ => none
end

/-- The value that a text spells. -/
def parse? (text : String) : Option Json := do
  let cs := text.toList
  let (v, rest) ← readValue? (cs.length + 1) cs
  if (skipBlanks rest).isEmpty then some v else none

end MutationAnalysis.Json
