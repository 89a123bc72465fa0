/-
Compiling a program to a module.

The module imports the memory and the table of the image, the addresses of the functions it calls
and does not define, and the cells it calls through; instrumented code also imports the two probes
and its offset.  Every function defined is exported under its name.
-/
import MutationAnalysis.Error
import MutationAnalysis.Lowering.Code

namespace MutationAnalysis

/-- A compiled program with the symbols that linking needs. -/
structure CompiledProgram where
  moduleId : String
  code : Wasm.Module
  /-- Functions defined, in order. -/
  defined : List String
  /-- Functions called and not defined, with the signatures they are called with. -/
  undefined : List (String × Signature)
  /-- Cells that the code calls through. -/
  cells : List String
  constructors : List String
  isInstrumented : Bool

namespace Lowering

open Wasm

def Defect.toError (d : Defect) : Error := ⟨.compile, d.message⟩

/-- What the module imports. -/
def imports (l : Layout) (moduleId : String) (minPages : Nat) : List Import :=
  [⟨SymbolName.environment, SymbolName.memory, .memory minPages⟩,
   ⟨SymbolName.environment, SymbolName.table, .table⟩]
    ++ l.undefined.map (fun u => ⟨SymbolName.addresses, u.1, .global false⟩)
    ++ l.cells.map (fun cell => ⟨SymbolName.environment, cell, .global true⟩)
    ++ if l.isInstrumented then
        let probe := ImportKind.function (l.typeIndex probeType)
        [⟨SymbolName.environment, SymbolName.enterFunction, probe⟩,
         ⟨SymbolName.environment, SymbolName.leaveFunction, probe⟩,
         ⟨SymbolName.environment, SymbolName.indexOffset moduleId, .global false⟩]
      else []

/-- The bodies of functions from an index on. -/
def functionBodies (l : Layout) : Nat → List Function → Except Defect (List Body)
  | _, [] => .ok []
  | index, f :: rest => do
    let body ← functionBody l index f
    let bodies ← functionBodies l (index + 1) rest
    return body :: bodies

end Lowering

open Lowering in
/-- Compiles a program; the memory that it imports has at least the given number of pages. -/
def Program.compile (p : Program) (moduleId : String) (isInstrumented : Bool)
    (minPages : Nat) : Except Lowering.Defect CompiledProgram := do
  let l ← Layout.of p isInstrumented
  let bodies ← functionBodies l 0 p.functions
  let code : Wasm.Module := {
    types := l.types
    imports := imports l moduleId minPages
    functions := bodies
    exports := p.functions.zipIdx.map fun (f, i) => ⟨f.name, l.probes + i⟩ }
  return {
    moduleId, code
    defined := p.functions.map (·.name)
    undefined := l.undefined
    cells := l.cells
    constructors := p.constructors
    isInstrumented }

end MutationAnalysis
