/-
Program units.

A unit is a module with its role, its path and an identifier made of the path's stem and the digest
of the program's binary encoding.  The identifier stays when the program is prepared for mutation.
-/
import MutationAnalysis.Digest.Md5
import MutationAnalysis.Program.Binary
import MutationAnalysis.Text.FileStem

namespace MutationAnalysis

/-- Whether a module is under test or holds tests. -/
inductive Role where
  | source
  | test
  deriving Repr, DecidableEq

def Role.name : Role → String
  | source => "source"
  | test => "test"

structure ProgramUnit where
  program : Program
  role : Role
  path : String
  identifier : String
  deriving Repr, DecidableEq

namespace ProgramUnit

/-- The stem that begins the identifier. -/
def stem (path : String) : String :=
  (Text.fileStem? path).getD "module"

def new (program : Program) (role : Role) (path : String) : ProgramUnit :=
  ⟨program, role, path, stem path ++ "_" ++ Digest.Md5.hexDigest program.toBytes⟩

end ProgramUnit

end MutationAnalysis
