/-
Universally unique identifiers as text.

An identifier is read as 32 digits, or as groups of 8-4-4-4-12 digits joined by hyphens, which may
stand in braces or after `urn:uuid:`.  Case makes no difference, neither in the digits nor in that
word.  It is always shown in lowercase groups.
-/
import MutationAnalysis.Text.Hex

namespace MutationAnalysis.Text

/-- The sixteen bytes of an identifier. -/
structure Uuid where
  bytes : List UInt8
  deriving Repr, DecidableEq

namespace Uuid

/-- Takes the hyphens out of the grouped form; none if they are not where they belong. -/
def ungroup? (cs : List Char) : Option (List Char) :=
  if cs.length = 36 ∧ [8, 13, 18, 23].all (fun i => cs[i]? = some '-') then
    some (cs.take 8 ++ (cs.drop 9).take 4 ++ (cs.drop 14).take 4 ++ (cs.drop 19).take 4
      ++ cs.drop 24)
  else none

/-- The digits of any accepted form. -/
def digits? (cs : List Char) : Option (List Char) :=
  let urn := "urn:uuid:".toList
  if cs.length = 32 then some cs
  else if cs.length = 36 then ungroup? cs
  else if cs.length = 38 ∧ cs.head? = some '{' ∧ cs.getLast? = some '}' then
    ungroup? (cs.drop 1).dropLast
  else if cs.length = 45 ∧ (cs.take 9).map Char.toLower = urn then ungroup? (cs.drop 9)
  else none

def parse? (text : String) : Option Uuid := do
  let cs ← digits? text.toList
  let bytes ← Hex.ofDigits? cs
  return ⟨bytes⟩

/-- Lowercase groups of 8-4-4-4-12 digits. -/
def text (id : Uuid) : String :=
  let cs := Hex.digits id.bytes
  let group (start count : Nat) := String.ofList ((cs.drop start).take count)
  String.intercalate "-" [group 0 8, group 8 4, group 12 4, group 16 4, group 20 12]

/-- The identifier of version 4 with the given random bytes: the version and variant bits are set
as the version requires. -/
def ofRandom (random : List UInt8) : Uuid :=
  ⟨random.zipIdx.map fun (b, i) =>
    if i = 6 then (b &&& 0x0F) ||| 0x40 else if i = 8 then (b &&& 0x3F) ||| 0x80 else b⟩

end Uuid

end MutationAnalysis.Text
