/-
Reading typed data out of JSON values.

A record is written as an object, whose unknown fields are ignored and whose known ones stand at
most once, or as the array of its fields in order of declaration, of which the last ones may be left
out.  A field that is left out takes its default; an optional one without a default may be left out
of an object only.  A case without data is the string of its name, or an object that maps the name
to null; a case with data is an object that maps its name to the data.
-/
import MutationAnalysis.Json.Basic

namespace MutationAnalysis.Json

/-- A natural number below a bound. -/
def natBelow? (bound : Nat) : Json → Option Nat
  | .number (.natural n) => if n < bound then some n else none
  | _ => none

def uint8? (v : Json) : Option UInt8 := (v.natBelow? UInt8.size).map UInt8.ofNat

def uint32? (v : Json) : Option UInt32 := (v.natBelow? UInt32.size).map UInt32.ofNat

def uint64? (v : Json) : Option UInt64 := (v.natBelow? UInt64.size).map UInt64.ofNat

def int32? : Json → Option Int32
  | .number (.natural n) => if n < 2147483648 then some (Int32.ofInt n) else none
  | .number (.negative n) => if n ≤ 2147483648 then some (Int32.ofInt (-(n : Int))) else none
  | _ => none

def bool? : Json → Option Bool
  | .bool b => some b
  | _ => none

def string? : Json → Option String
  | .string s => s
  | _ => none

/-- An array of which every item can be read. -/
def list? {α : Type} (read : Json → Option α) : Json → Option (List α)
  | .array items => items.mapM read
  | _ => none

/-- Null, or a value that can be read. -/
def nullable? {α : Type} (read : Json → Option α) : Json → Option (Option α)
  | .null => some none
  | v => (read v).map some

/-- A pair written as an array of two. -/
def pair? {α β : Type} (first : Json → Option α) (second : Json → Option β) :
    Json → Option (α × β)
  | .array [a, b] => do return (← first a, ← second b)
  | _ => none

/-- The name of a case and its data, if any. -/
def case? : Json → Option (String × Option Json)
  | .string (some name) => some (name, none)
  | .object [(some name, v)] => some (name, some v)
  | _ => none

/-- A case without data, by its name. -/
def plainCase? {α : Type} (table : List (String × α)) (v : Json) : Option α :=
  match v.case? with
  | some (name, none) | some (name, some .null) => table.lookup name
  | _ => none

/-- The fields of a record in order of declaration. -/
structure Fields where
  /-- Whether the record was written as an array. -/
  positional : Bool
  values : List (Option Json)

/-- The value of a key that stands in an object at most once. -/
def Fields.find (fields : List (JsonText × Json)) (name : String) : Option Json :=
  fields.findSome? fun f => if f.1 == some name then some f.2 else none

/-- Reads a record with the given field names. -/
def fields? (names : List String) : Json → Option Fields
  | .array items =>
    if items.length ≤ names.length then
      some ⟨true, items.map some ++ List.replicate (names.length - items.length) none⟩
    else none
  | .object fields =>
    if fields.any (fun f => f.1 == none) then none
    else if names.any (fun name => 1 < (fields.filter fun f => f.1 == some name).length) then none
    else some ⟨false, names.map (Fields.find fields)⟩
  | _ => none

namespace Fields

/-- The field of an index, if it was written. -/
def get (r : Fields) (i : Nat) : Option Json :=
  (r.values[i]?).getD none

/-- A field that must be there. -/
def required {α : Type} (r : Fields) (i : Nat) (read : Json → Option α) : Option α :=
  (r.get i).bind read

/-- A field with a default. -/
def withDefault {α : Type} (r : Fields) (i : Nat) (read : Json → Option α) (value : α) :
    Option α :=
  match r.get i with
  | none => some value
  | some v => read v

/-- A field that may be null and has no default: it may be left out of an object. -/
def optional {α : Type} (r : Fields) (i : Nat) (read : Json → Option α) : Option (Option α) :=
  match r.get i with
  | none => if r.positional then none else some none
  | some v => v.nullable? read

end Fields

end MutationAnalysis.Json
