/-
Quoted text for diagnostics.

`quoted` puts text between double quotes and escapes what could not be told apart on a
terminal: quotes, backslashes, the usual controls by name, and any other unprintable or
combining character by its code point.
-/
import MutationAnalysis.Text.CharacterClass
import MutationAnalysis.Text.Hex

namespace MutationAnalysis.Text

/-- One character as it stands between the quotes. -/
def escapeChar (c : Char) : String :=
  if c = '"' then "\\\""
  else if c = '\\' then "\\\\"
  else if c = '\n' then "\\n"
  else if c = '\t' then "\\t"
  else if c = '\r' then "\\r"
  else if c.toNat = 0 then "\\0"
  else if 0x20 ≤ c.toNat ∧ c.toNat < 0x7F then String.singleton c
  else if isPlain c then String.singleton c
  else "\\u\x7b" ++ Hex.ofNat c.toNat ++ "\x7d"

/-- Text between double quotes. -/
def quoted (s : String) : String :=
  s.toList.foldl (fun acc c => acc ++ escapeChar c) "\"" ++ "\""

end MutationAnalysis.Text
