/-
Modules of the target machine.

A module imports a memory, a table, functions and globals, defines functions of its own and exports
them by name.  The index space of functions, and that of globals, begins with what is imported.
-/
import MutationAnalysis.Wasm.Code

namespace MutationAnalysis.Wasm

/-- The type of a function: so many words, giving one or none back. -/
structure FuncType where
  params : Nat
  hasResult : Bool
  deriving Repr, DecidableEq

/-- How many words a call gives back. -/
def FuncType.results (t : FuncType) : Nat := if t.hasResult then 1 else 0

/-- What a module may import. -/
inductive ImportKind where
  /-- A memory of at least so many pages. -/
  | memory (minimum : Nat)
  | table
  | global (isMutable : Bool)
  | function (type : Nat)
  deriving Repr, DecidableEq

structure Import where
  space : String
  name : String
  kind : ImportKind
  deriving Repr, DecidableEq

/-- A function that a module defines: its type's index, how many locals it has besides its
parameters, and its code. -/
structure Body where
  type : Nat
  locals : Nat
  code : Code
  deriving Repr, DecidableEq

/-- A name under which a function is exported. -/
structure Export where
  name : String
  function : Nat
  deriving Repr, DecidableEq

structure Module where
  types : List FuncType
  imports : List Import
  functions : List Body
  exports : List Export
  deriving Repr, DecidableEq

namespace Module

/-- The type indices of the imported functions, in order. -/
def importedFunctions (m : Module) : List Nat :=
  m.imports.filterMap fun i =>
    match i.kind with
    | .function type => some type
    | _ => none

/-- The imported globals, in order. -/
def importedGlobals (m : Module) : List Import :=
  m.imports.filter fun i =>
    match i.kind with
    | .global _ => true
    | _ => false

/-- The type indices of the function index space. -/
def functionTypes (m : Module) : List Nat :=
  m.importedFunctions ++ m.functions.map (·.type)

end Module

end MutationAnalysis.Wasm
