/-
Tests and what running them says.

A status is the verdict on one execution of a test.  A mutant is killed by an execution that fails,
crashes or runs out of time, or by one that was saved because an earlier test had killed it.
-/
import MutationAnalysis.Duration

namespace MutationAnalysis

inductive Status where
  | passed
  | failed
  | crashed
  | timeout
  | failFast
  | invalid
  deriving Repr, DecidableEq

namespace Status

/-- Whether the status tells the mutant from the program. -/
def kills : Status → Bool
  | failed | crashed | timeout | failFast => true
  | passed | invalid => false

/-- Whether the test was run at all. -/
def isExecuted : Status → Bool
  | failFast | invalid => false
  | _ => true

def name : Status → String
  | passed => "Passed"
  | failed => "Failed"
  | crashed => "Crashed"
  | timeout => "Timeout"
  | failFast => "FailFast"
  | invalid => "Invalid"

end Status

/-- What one run of a test says: its status, and what it wrote or why it is invalid. -/
structure Outcome where
  status : Status
  output : String
  deriving Repr, DecidableEq

/-- An outcome with the time it took. -/
structure Execution where
  status : Status
  runningTime : Duration
  output : String
  deriving Repr, DecidableEq

namespace Execution

/-- A test that is not run because its mutant is dead already; it costs nothing. -/
def failFast : Execution := ⟨.failFast, .zero, ""⟩

/-- A test that could not be run, with the reason. -/
def invalid (reason : String) : Execution := ⟨.invalid, .zero, reason⟩

end Execution

/-- A test: an entry function with the program arguments it is given. -/
structure Test where
  name : String
  entry : String
  arguments : List String
  /-- Time that the test took on the unmutated program. -/
  baselineTime : Duration
  deriving Repr, DecidableEq

/-- A test of which no running time is known. -/
def Test.new (name entry : String) (arguments : List String) : Test :=
  ⟨name, entry, arguments, .zero⟩

end MutationAnalysis
