/-
Writing JSON text.

`Json.write` gives the shortest spelling, on one line; `Json.writeIndented` puts every item and
field on a line of its own, indented by two blanks a level.  Strings escape quotes, backslashes and
control characters and nothing else.
-/
import MutationAnalysis.Json.Basic
import MutationAnalysis.Text.Hex

namespace MutationAnalysis.Json

/-- One character as it stands in a string. -/
def writeChar (c : Char) : String :=
  if c = '"' then "\\\""
  else if c = '\\' then "\\\\"
  else if c = '\n' then "\\n"
  else if c = '\r' then "\\r"
  else if c = '\t' then "\\t"
  else if c = '\x08' then "\\b"
  else if c = '\x0c' then "\\f"
  else if c.toNat < 0x20 then
    "\\u00" ++ String.ofList [Text.Hex.digit (c.toNat / 16), Text.Hex.digit (c.toNat % 16)]
  else String.singleton c

def writeText (acc : String) (s : JsonText) : String :=
  ((s.getD "").toList.foldl (fun acc c => acc ++ writeChar c) (acc ++ "\"")) ++ "\""

def writeNumber : JsonNumber → String
  | .natural n => toString n
  | .negative n => "-" ++ toString n
  | .decimal m e => toString m ++ "e" ++ toString e

mutual
/-- Appends the spelling of a value to a text. -/
def writeOn (acc : String) : Json → String
  | .null => acc ++ "null"
  | .bool b => acc ++ (if b then "true" else "false")
  | .number n => acc ++ writeNumber n
  | .string s => writeText acc s
  | .array items => writeItemsOn (acc ++ "[") true items ++ "]"
  | .object fields => writeFieldsOn (acc ++ "\x7b") true fields ++ "\x7d"

def writeItemsOn (acc : String) (first : Bool) : List Json → String
  | [] => acc
  | v :: rest => writeItemsOn (writeOn (if first then acc else acc ++ ",") v) false rest

def writeFieldsOn (acc : String) (first : Bool) : List (JsonText × Json) → String
  | [] => acc
  | (k, v) :: rest =>
    let acc := writeText (if first then acc else acc ++ ",") k ++ ":"
    writeFieldsOn (writeOn acc v) false rest
end

/-- The value on one line. -/
def write (v : Json) : String :=
  writeOn "" v

/-- A line break followed by the indentation of a level. -/
def lineBreak (level : Nat) : String :=
  "\n" ++ String.ofList (List.replicate (2 * level) ' ')

mutual
/-- Appends the indented spelling of a value that stands on the given level. -/
def writeIndentedOn (acc : String) (level : Nat) : Json → String
  | .array [] => acc ++ "[]"
  | .array (v :: rest) =>
    writeIndentedItems (acc ++ "[") (level + 1) true (v :: rest) ++ lineBreak level ++ "]"
  | .object [] => acc ++ "\x7b\x7d"
  | .object (f :: rest) =>
    writeIndentedFields (acc ++ "\x7b") (level + 1) true (f :: rest) ++ lineBreak level ++ "\x7d"
  | v => writeOn acc v

def writeIndentedItems (acc : String) (level : Nat) (first : Bool) : List Json → String
  | [] => acc
  | v :: rest =>
    let acc := (if first then acc else acc ++ ",") ++ lineBreak level
    writeIndentedItems (writeIndentedOn acc level v) level false rest

def writeIndentedFields (acc : String) (level : Nat) (first : Bool) :
    List (JsonText × Json) → String
  | [] => acc
  | (k, v) :: rest =>
    let acc := writeText ((if first then acc else acc ++ ",") ++ lineBreak level) k ++ ": "
    writeIndentedFields (writeIndentedOn acc level v) level false rest
end

/-- The value with a line per item and field. -/
def writeIndented (v : Json) : String :=
  writeIndentedOn "" 0 v

end MutationAnalysis.Json
