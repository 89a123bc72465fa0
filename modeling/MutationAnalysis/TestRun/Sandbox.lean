/-
Isolating test bodies.

The fork sandbox runs a body in a copy of the process and throws the copy away; only the copy's exit
status, a mark of invalidity and the output come back, and a copy that does not end in time is
killed.  The other sandbox runs the body in place.
-/
import MutationAnalysis.Config
import MutationAnalysis.TestRun.Runner

namespace MutationAnalysis

/-- What becomes of a test body. -/
inductive BodyEnd where
  | reported (o : Outcome)
  | panicked
  /-- It does not end before its time is over. -/
  | endless
  /-- It ends its process with a status of its own. -/
  | processEnd (code : Int32)
  deriving Repr, DecidableEq

namespace Sandbox

/-- The outcome of a body that panics. -/
def panicOutcome : Outcome := ⟨.crashed, "test body panicked"⟩

/-- The outcome when a copy of the process runs the body: zero as exit status is a pass, an abort a
crash, and any other status a failure unless the body marked it as invalid. -/
def forked : BodyEnd → Outcome
  | .reported ⟨.passed, output⟩ => ⟨.passed, output⟩
  | .reported ⟨.crashed, output⟩ => ⟨.crashed, output⟩
  | .reported ⟨.invalid, output⟩ => ⟨.invalid, output⟩
  | .reported ⟨_, output⟩ => ⟨.failed, output⟩
  | .panicked => panicOutcome
  | .endless => ⟨.timeout, ""⟩
  | .processEnd code => ⟨if code.toInt % 256 = 0 then .passed else .failed, ""⟩

/-- The outcome when the body runs in place, where a body that never ends or
ends the process leaves none. -/
def inPlace : BodyEnd → Option Outcome
  | .reported o => some o
  | .panicked => some panicOutcome
  | .endless | .processEnd _ => none

/-- What a run of a test is to the copy of a process: deadlines do not pass there, so a run that
meets its deadline is one that the sandbox has to kill. -/
def bodyOfRun : RunResult → BodyEnd
  | .outcome ⟨.timeout, _⟩ => .endless
  | .outcome o => .reported o
  | .processEnd code => .processEnd code

end Sandbox

/-- What runs test bodies: it is given the body, the time it may take, and the loader whose image
the body runs in, and gives back what it saw and the loader afterwards. -/
abbrev Sandbox := (Loader → RunResult × Loader) → Duration → Loader → Execution × Loader

namespace Sandbox

/-- An outcome with the time that a body took of the loader's steps. -/
def timed (o : Outcome) (before after : Loader) : Execution :=
  ⟨o.status, .ofSteps (before.stepsLeft - after.stepsLeft), o.output⟩

/-- Runs the body on a copy of the loader that has the given time, and throws the copy away. -/
def fork : Sandbox := fun body timeout l =>
  let start := l.setDeadline (some timeout)
  let (result, after) := body start
  (timed (forked (bodyOfRun result)) start after, l)

/-- Runs the body on the loader itself, under whatever deadline is armed there.  A body that ends
the process counts as a crash. -/
def none : Sandbox := fun body _ l =>
  match body l with
  | (.outcome o, after) => (timed o l after, after)
  | (.processEnd _, after) => (timed ⟨.crashed, ""⟩ l after, after)

def ofIsolation : Isolation → Sandbox
  | .fork => fork
  | .none => none

end Sandbox

end MutationAnalysis
