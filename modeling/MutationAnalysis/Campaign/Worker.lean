/-
Running mutants.

A worker takes a slice of the mutation points.  It links an image of its own, binds every cell to
the preserved body of its function, and then takes one point after the other: it binds the point's
mutant, runs the tests that reach it, and binds the preserved body again.  Each pair of a point and
a test that reaches it has exactly one result, in order.  An invalid execution spoils the rest of
its point and halts the worker, whose later points are all recorded as invalid.
-/
import MutationAnalysis.Campaign.Progress
import MutationAnalysis.Image.Trampolines
import MutationAnalysis.Mutation.Point
import MutationAnalysis.TestRun.Sandbox

namespace MutationAnalysis

/-- One test against one mutant. -/
structure MutationResult where
  point : MutationPoint
  test : String
  distance : Nat
  execution : Execution
  deriving Repr, DecidableEq

/-- What all workers of a run share. -/
structure WorkerContext where
  loader : LoaderConfig
  /-- The compiled units, with preserved bodies, mutants and tests. -/
  objects : List Object
  /-- The keys of the mutated functions. -/
  keys : List String
  tests : List Test
  sandbox : Sandbox
  config : EngineConfig

namespace WorkerContext

/-- The test of a name, the last one if there are several. -/
def test? (c : WorkerContext) (name : String) : Option Test :=
  c.tests.reverse.find? (·.name == name)

/-- A loader with the image and the cells, every cell on its preserved body. -/
def setup (c : WorkerContext) : Except Error (Trampolines × Loader) := do
  let (t, l) ← Trampolines.empty.allocate (.new c.loader) c.keys
  match l.load c.objects (.chain [.overrides, .hostProcess, t.resolver]) with
  | (_, .error e) => .error e
  | (l, .ok ()) =>
    match t.bindPreserved l with
    | (_, .error e) => .error e
    | (l, .ok ()) => return (t, l)

/-- Results that say that a point's tests could not be run, with the reason. -/
def invalidResults (p : MutationPoint) (tests : List (String × Nat)) (reason : String) :
    List MutationResult :=
  tests.map fun (test, distance) => ⟨p, test, distance, .invalid reason⟩

/-- Runs a test against the mutant that is bound. -/
def runTest (c : WorkerContext) (l : Loader) (name : String) : Execution × Loader :=
  match c.test? name with
  | none => (.invalid ("unknown test '" ++ name ++ "'"), l)
  | some test =>
    let timeout := c.config.testTimeout test.baselineTime
    let body (l : Loader) := TestRun.run TestRun.defaultProgramName l test
    c.sandbox body timeout (l.setDeadline (some timeout))

/-- Runs tests of a point one after the other; `killed` says whether one has killed the mutant. -/
def runTests (c : WorkerContext) (p : MutationPoint) (killed : Bool) (l : Loader) :
    List (String × Nat) → List MutationResult × Loader × Except Error Unit
  | [] => ([], l, .ok ())
  | (test, distance) :: rest =>
    if c.config.failFast && killed then
      let (results, l, outcome) := c.runTests p killed l rest
      (⟨p, test, distance, .failFast⟩ :: results, l, outcome)
    else
      let (e, l) := c.runTest l test
      let result : MutationResult := ⟨p, test, distance, e⟩
      if e.status = .invalid then
        (result :: invalidResults p rest "previous execution was invalid", l,
          .error ⟨.invalidState, "invalid execution of " ++ test ++ " against " ++ p.identifier⟩)
      else
        let (results, l, outcome) := c.runTests p (killed || e.status.kills) l rest
        (result :: results, l, outcome)

/-- Binds the mutant of a point. -/
def bindMutant (t : Trampolines) (l : Loader) (p : MutationPoint) : Except Error Loader :=
  match l.address? p.identifier with
  | some address => t.bind l p.key address
  | none => .error ⟨.notFound, "mutant body '" ++ p.identifier ++ "'"⟩

/-- Runs the tests of a point with its mutant bound and then binds the preserved body. -/
def runPoint (c : WorkerContext) (t : Trampolines) (l : Loader) (p : MutationPoint) :
    List MutationResult × Loader × Except Error Unit :=
  match bindMutant t l p with
  | .error e => (invalidResults p p.reachableTests e.message, l, .error e)
  | .ok l =>
    let (results, l, outcome) := c.runTests p false l p.reachableTests
    match t.bindTo l p.key (SymbolName.preserved p.key) with
    | .ok l => (results, l, outcome)
    | .error e => (results, l, outcome.bind fun () => .error e)

/-- Records all tests of points as invalid for one reason and counts the points. -/
def recordInvalid (reason : String) (progress : Progress) :
    List MutationPoint → List MutationResult × Progress
  | [] => ([], progress)
  | p :: rest =>
    let (results, progress) := recordInvalid reason progress.increment rest
    (invalidResults p p.reachableTests reason ++ results, progress)

/-- Runs points one after the other until one halts the worker, and counts each of them. -/
def runPoints (c : WorkerContext) (t : Trampolines) (l : Loader) (progress : Progress) :
    List MutationPoint → List MutationResult × Progress
  | [] => ([], progress)
  | p :: rest =>
    match c.runPoint t l p with
    | (results, l, .ok ()) =>
      let (more, progress) := c.runPoints t l progress.increment rest
      (results ++ more, progress)
    | (results, _, .error e) =>
      let (more, progress) :=
        recordInvalid ("worker halted: " ++ e.message) progress.increment rest
      (results ++ more, progress)

/-- The results of a slice of points, each of which is counted. -/
def execute (c : WorkerContext) (progress : Progress) (points : List MutationPoint) :
    List MutationResult × Progress :=
  match c.setup with
  | .error e => recordInvalid ("worker setup failed: " ++ e.message) progress points
  | .ok (t, l) => c.runPoints t l progress points

end WorkerContext

end MutationAnalysis
