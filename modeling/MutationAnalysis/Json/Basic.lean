/-
JSON values.

A value keeps what a strict reader may still refuse: the fields of an object in the order in which
they were written, repeated keys included, numbers with their written form of integer or decimal,
and strings that name half of a surrogate pair and so spell no text.
-/

namespace MutationAnalysis

/-- A number as it was written.  Only digits with an optional minus sign make an
integer; minus zero is none. -/
inductive JsonNumber where
  | natural (n : Nat)
  | negative (n : Nat)
  | decimal (mantissa : Nat) (exponent : Int)
  deriving Repr, DecidableEq

/-- The text of a string, none if one of its escapes is half of a surrogate pair. -/
abbrev JsonText := Option String

inductive Json where
  | null
  | bool (b : Bool)
  | number (n : JsonNumber)
  | string (s : JsonText)
  | array (items : List Json)
  | object (fields : List (JsonText × Json))
  deriving Repr, Inhabited

namespace Json

def text (s : String) : Json := .string (some s)

def nat (n : Nat) : Json := .number (.natural n)

def int (i : Int) : Json :=
  match i with
  | .ofNat n => .number (.natural n)
  | .negSucc n => .number (.negative (n + 1))

/-- An object with the given fields in order. -/
def record (fields : List (String × Json)) : Json :=
  .object (fields.map fun (k, v) => (some k, v))

/-- The value, or null when there is none. -/
def orNull {α : Type} (f : α → Json) : Option α → Json
  | none => .null
  | some a => f a

def listOf {α : Type} (f : α → Json) (items : List α) : Json :=
  .array (items.map f)

end Json

end MutationAnalysis
