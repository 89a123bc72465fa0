/-
Tracing a test.

A traced run records into a fresh mapping and turns it into a call tree.
-/
import MutationAnalysis.TestRun.Runner
import MutationAnalysis.Trace.CallTree
import MutationAnalysis.Trace.Numbering

namespace MutationAnalysis

/-- A traced run: how it ended, how long it took, and who called whom. -/
structure Trace where
  result : RunResult
  runningTime : Duration
  callTree : CallTree

namespace Trace

/-- The functions that the test reached, its own entry left out, with their distances. -/
def testees (t : Trace) (numbering : Numbering) (entry : String) (maxDistance : Nat) :
    List (TracedFunction × Nat) :=
  (t.callTree.testees ((numbering.number? entry).getD 0) maxDistance).filterMap
    fun (number, distance) => (numbering.function? number).map fun f => (f, distance)

/-- Runs a test in an image that is instrumented with a numbering. -/
def run (numbering : Numbering) (programName : String) (l : Loader) (test : Test) :
    Except Error (Trace × Loader) :=
  if l.isLoaded then
    let start := l.mapHost (·.beginTrace numbering.mappingSize)
    let stepsBefore := start.stepsLeft
    let (result, l) := TestRun.run programName start test
    let (mapping, host) := l.host.takeMapping
    let time := Duration.ofSteps (stepsBefore - l.stepsLeft)
    .ok (⟨result, time, .ofMapping mapping⟩, { l with host })
  else .error ⟨.invalidState, "no instrumented image loaded"⟩

end Trace

end MutationAnalysis
