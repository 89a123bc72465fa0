/-
A whole run.

The tests run on the unmutated program first, in one image and in order.  Those that pass say which
source functions they reach; these are searched for mutation points, the source units are prepared
and compiled again, and the points are distributed over the workers.
-/
import MutationAnalysis.Campaign.Schedule
import MutationAnalysis.Mutation.Discovery
import MutationAnalysis.Trace.Tracer
import MutationAnalysis.Unit.Preparation

namespace MutationAnalysis

/-- A test that passes on the unmutated program, with the source functions that it reaches: the
unit's index, the function's index, and the distance. -/
structure BaselineTest where
  test : Test
  testees : List (Nat × Nat × Nat)
  deriving Repr, DecidableEq

structure Engine where
  config : EngineConfig
  loader : LoaderConfig
  operators : List Operator

namespace Engine

/-- An engine with a normalized configuration. -/
def new (config : EngineConfig) (operators : List Operator) : Except Error Engine := do
  let config := config.normalize
  return ⟨config, ← LoaderConfig.of config.execution, operators⟩

/-- Whether a function of a unit may be mutated. -/
def isMutable (unit : ProgramUnit) (function : Nat) : Bool :=
  unit.role == .source &&
    (unit.program.functions[function]?).any fun f => !SymbolName.isInternal f.name

/-- Every function of every unit, at no distance. -/
def allFunctions (units : List ProgramUnit) : List (Nat × Nat × Nat) :=
  units.zipIdx.flatMap fun (unit, u) =>
    (List.range unit.program.functions.length).map fun f => (u, f, 0)

/-- The unit of an identifier, the last one if there are several. -/
def unitIndex? (units : List ProgramUnit) (identifier : String) : Option Nat :=
  (units.zipIdx.reverse.find? fun (u, _) => u.identifier == identifier).map (·.2)

/-- The functions that a traced test reached, by unit. -/
def tracedFunctions (e : Engine) (units : List ProgramUnit) (numbering : Numbering)
    (trace : Trace) (test : Test) : List (Nat × Nat × Nat) :=
  (trace.testees numbering test.entry e.config.maxDistance).filterMap fun (f, distance) =>
    (unitIndex? units f.moduleId).map fun u => (u, f.localIndex, distance)

/-- The functions that a test reached and that may be mutated. -/
def testees (e : Engine) (units : List ProgramUnit) (numbering : Numbering) (trace : Trace)
    (test : Test) : List (Nat × Nat × Nat) :=
  let reached :=
    if e.config.callTree then e.tracedFunctions units numbering trace test else allFunctions units
  reached.filter fun (u, f, _) => (units[u]?).any fun unit => isMutable unit f

/-- Whether a run of a test ended in a pass. -/
def isPass : RunResult → Bool
  | .outcome o => o.status == .passed
  | .processEnd _ => false

/-- Runs tests one after the other in a loaded image and keeps those that pass. -/
def traceTests (e : Engine) (units : List ProgramUnit) (numbering : Numbering) (l : Loader) :
    List Test → Except Error (List BaselineTest)
  | [] => .ok []
  | test :: rest => do
    let l := l.setDeadline (some (e.config.testTimeout .zero))
    let (trace, l) ← Trace.run numbering TestRun.defaultProgramName l test
    let others ← e.traceTests units numbering l rest
    if isPass trace.result then
      let timed := { test with baselineTime := trace.runningTime }
      return ⟨timed, e.testees units numbering trace test⟩ :: others
    else return others

/-- Compiles units, instrumented or not. -/
def compileUnits (units : List ProgramUnit) (isInstrumented : Bool) : Except Error (List Object) :=
  units.mapM fun u => Object.compile u.program u.identifier isInstrumented

/-- Runs tests on the unmutated program. -/
def baseline (e : Engine) (units : List ProgramUnit) (tests : List Test) :
    Except Error (List BaselineTest) := do
  let objects ← compileUnits units e.config.callTree
  let numbering := Numbering.of objects
  match (Loader.new e.loader).load objects
      (.chain [.overrides, .hostProcess, numbering.resolver]) with
  | (_, .error error) => .error error
  | (l, .ok ()) => e.traceTests units numbering l tests

/-- The mutation points of the functions that tests reach. -/
def findPoints (operators : List Operator) (units : List ProgramUnit)
    (baseline : List BaselineTest) : List MutationPoint :=
  let recordTest (finder : Finder) (b : BaselineTest) : Finder :=
    b.testees.foldl (fun finder (u, f, distance) =>
      match units[u]? with
      | some unit => finder.record unit f b.test.name distance
      | none => finder) finder
  (baseline.foldl recordTest (Finder.new operators)).points

/-- Prepares the source units; gives all units and the keys of the mutated functions. -/
def prepareUnits (points : List MutationPoint) :
    List ProgramUnit → Except Error (List ProgramUnit × List String)
  | [] => .ok ([], [])
  | u :: rest => do
    if u.role = .source then
      match u.prepare points with
      | (_, .error fault) => .error fault.toError
      | (prepared, .ok keys) =>
        let (units, more) ← prepareUnits points rest
        return (prepared :: units, keys ++ more)
    else
      let (units, keys) ← prepareUnits points rest
      return (u :: units, keys)

/-- What workers need to run the prepared units. -/
def context (e : Engine) (objects : List Object) (keys : List String) (tests : List Test) :
    WorkerContext :=
  ⟨e.loader, objects, keys, tests, .ofIsolation e.config.sandbox, e.config⟩

/-- The first test name that an earlier test has too. -/
def validateTests (tests : List Test) : Except Error Unit :=
  match Program.firstRepeated [] (tests.map (·.name)) with
  | some name => .error ⟨.validation, "duplicate test '" ++ name ++ "'"⟩
  | none => .ok ()

/-- Accepts units that can be compiled. -/
def validateUnits (units : List ProgramUnit) : Except Error Unit :=
  units.forM fun u =>
    match u.program.validate with
    | .ok () => .ok ()
    | .error fault => .error ⟨.validation, u.path ++ ": " ++ fault.toError.message⟩

/-- Runs the tests that reach them against all mutants of the source units. -/
def run (e : Engine) (units : List ProgramUnit) (tests : List Test) :
    Except Error (List MutationResult) := do
  validateTests tests
  validateUnits units
  let baseline ← e.baseline units tests
  let points := findPoints e.operators units baseline
  let (prepared, keys) ← prepareUnits points units
  let objects ← compileUnits prepared false
  let c := e.context objects keys (baseline.map (·.test))
  return (c.schedule (.new points.length) e.config.workerCount points).1

end Engine

end MutationAnalysis
