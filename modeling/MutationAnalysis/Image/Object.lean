/-
Object files: compiled programs that the machine accepts.
-/
import MutationAnalysis.Lowering.Module
import MutationAnalysis.Text.Quoted
import MutationAnalysis.Wasm.Validity

namespace MutationAnalysis

/-- A compiled program with the symbols that linking needs. -/
structure Object where
  moduleId : String
  code : Wasm.Module
  defined : List String
  undefined : List (String × Signature)
  constructors : List String
  isInstrumented : Bool

namespace Object

/-- Accepts the code of a compiled program if it is valid. -/
def ofCompiled (c : CompiledProgram) : Except Error Object :=
  if c.code.isValid then
    .ok ⟨c.moduleId, c.code, c.defined, c.undefined, c.constructors, c.isInstrumented⟩
  else .error ⟨.wasm, "module " ++ c.moduleId ++ " is not valid"⟩

/-- Compiles a program to an object whose memory has at least the given number of pages. -/
def compileWith (p : Program) (moduleId : String) (isInstrumented : Bool) (minPages : Nat) :
    Except Error Object :=
  match p.compile moduleId isInstrumented minPages with
  | .error defect => .error defect.toError
  | .ok compiled => ofCompiled compiled

def compile (p : Program) (moduleId : String) (isInstrumented : Bool) : Except Error Object :=
  compileWith p moduleId isInstrumented 1

/-- The signature with which the object calls a symbol. -/
def expectedSignature (o : Object) (symbol : String) : Option Signature :=
  (o.undefined.find? (·.1 == symbol)).map (·.2)

/-- The spelling in diagnostics: the sizes of the symbol lists only. -/
def text (o : Object) : String :=
  "ObjectFile \x7b module_id: " ++ Text.quoted o.moduleId ++ ", defined: "
    ++ toString o.defined.length ++ ", undefined: " ++ toString o.undefined.length
    ++ ", instrumented: " ++ (if o.isInstrumented then "true" else "false") ++ " \x7d"

end Object

end MutationAnalysis
