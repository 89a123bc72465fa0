/-
Preparing a unit for mutation.

For each function that points of the unit are in, its body is kept under the preserved name of its
key, each point gets a copy of the body with its edit made, named by the point's identifier, and the
function itself becomes a stub that calls through the cell of its key.  Which body runs is then
decided by the address in the cell.
-/
import MutationAnalysis.Mutation.Point
import MutationAnalysis.Program.Validation

namespace MutationAnalysis

/-- Why a unit cannot be prepared. -/
inductive PreparationFault where
  | noFunction (moduleId : String) (index : Nat)
  | tooManyParameters (function : String) (count : UInt64)
  | edit (fault : Operator.Fault)
  | program (fault : ProgramFault)
  deriving Repr, DecidableEq

def PreparationFault.toError : PreparationFault → Error
  | noFunction moduleId index =>
    ⟨.mutation, moduleId ++ " has no function at index " ++ toString index⟩
  | tooManyParameters f n =>
    ⟨.mutation, f ++ " takes " ++ toString n ++ " parameters, too many for a trampoline stub"⟩
  | edit fault => fault.toError
  | program fault => fault.toError

/-- The points of one function of the unit. -/
structure PointGroup where
  function : Nat
  points : List MutationPoint

namespace PointGroup

/-- Puts a point last into the group of its function, which is added last if it is new. -/
def insert (p : MutationPoint) : List PointGroup → List PointGroup
  | [] => [⟨p.address.function, [p]⟩]
  | g :: rest =>
    if g.function = p.address.function then { g with points := g.points ++ [p] } :: rest
    else g :: insert p rest

/-- The points by function, in the order in which the functions are first seen. -/
def ofPoints (points : List MutationPoint) : List PointGroup :=
  points.foldl (fun groups p => insert p groups) []

end PointGroup

/-- The stub of a function: it calls through the cell with all its parameters and gives back what
it gets, through the register after the parameters. -/
def Function.stub (f : Function) (cell : String) : Function :=
  let result : Register := f.numParams.toUInt8
  let arguments := (List.range f.numParams.toNat).map UInt8.ofNat
  let given := if f.returnType = .int then some result else none
  { f with
    blocks := [⟨[.throughCell cell arguments given, .returning given]⟩]
    numLocals := if f.returnType = .int then 1 else 0 }

/-- The copy of a function with a point's edit made. -/
def MutationPoint.mutant (p : MutationPoint) (f : Function) : Except Operator.Fault Function :=
  p.operator.apply p.address { f with name := p.identifier }

/-- A program that is being prepared, with how it went: a fault leaves it as far as it got. -/
structure Preparation where
  program : Program
  result : Except PreparationFault (List String)

namespace Program

def addFunction (p : Program) (f : Function) : Program :=
  { p with functions := p.functions ++ [f] }

/-- Adds the mutants of a function until one cannot be made. -/
def addMutants (f : Function) (p : Program) :
    List MutationPoint → Program × Except PreparationFault Unit
  | [] => (p, .ok ())
  | point :: rest =>
    match point.mutant f with
    | .error fault => (p, .error (.edit fault))
    | .ok mutant => addMutants f (p.addFunction mutant) rest

/-- Adds the preserved body and the mutants of a function and makes it a stub. -/
def prepareGroup (moduleId : String) (p : Program) (g : PointGroup) :
    Program × Except PreparationFault String :=
  match p.functions[g.function]? with
  | none => (p, .error (.noFunction moduleId g.function))
  | some f =>
    if maxParams < f.numParams then (p, .error (.tooManyParameters f.name f.numParams))
    else
      let key := SymbolName.key f.name moduleId
      let kept := p.addFunction { f with name := SymbolName.preserved key }
      match addMutants f kept g.points with
      | (p, .error fault) => (p, .error fault)
      | (p, .ok ()) =>
        let stub := f.stub (SymbolName.cell key)
        ({ p with functions := p.functions.set g.function stub }, .ok key)

/-- Prepares group after group, collecting the keys. -/
def prepareGroups (moduleId : String) (p : Program) (keys : List String) :
    List PointGroup → Preparation
  | [] => ⟨p, .ok keys⟩
  | g :: rest =>
    match p.prepareGroup moduleId g with
    | (p, .error fault) => ⟨p, .error fault⟩
    | (p, .ok key) => prepareGroups moduleId p (keys ++ [key]) rest

end Program

namespace ProgramUnit

/-- Prepares the unit for those of the points that are its own; gives the keys of the mutated
functions in the order in which they are first seen. -/
def prepare (unit : ProgramUnit) (points : List MutationPoint) :
    ProgramUnit × Except PreparationFault (List String) :=
  let own := points.filter (·.moduleId == unit.identifier)
  let ⟨program, result⟩ :=
    unit.program.prepareGroups unit.identifier [] (PointGroup.ofPoints own)
  let result := do
    let keys ← result
    match program.validate with
    | .ok () => .ok keys
    | .error fault => .error (.program fault)
  ({ unit with program }, result)

end ProgramUnit

end MutationAnalysis
