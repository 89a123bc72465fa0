/-
The stem of a path.

The last component of a path is its last part between slashes that is neither empty nor `.`; there
is none when that part is `..`.  The stem is the last component without the text from its last dot
on, unless that dot is its first character.
-/

namespace MutationAnalysis.Text

/-- The last component of a path, if it names a file. -/
def fileName? (path : String) : Option String :=
  let parts := (path.splitOn "/").filter fun part => part ≠ "" ∧ part ≠ "."
  match parts.getLast? with
  | none => none
  | some ".." => none
  | some name => some name

/-- A name without its extension. -/
def dropExtension (name : String) : String :=
  let cs := name.toList
  match (cs.reverse.dropWhile (· ≠ '.')).tail.reverse with
  | [] => name
  | stem => String.ofList stem

/-- The stem of a path, if it names a file. -/
def fileStem? (path : String) : Option String :=
  (fileName? path).map dropExtension

end MutationAnalysis.Text
