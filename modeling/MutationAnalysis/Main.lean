/-
The program.

It takes its arguments, the number of workers from the environment and the job from its file, runs
the job, and prints the report as text or as JSON.  Help and the version are printed when asked for.
-/
import MutationAnalysis.CommandLine
import MutationAnalysis.Json.Writer
import MutationAnalysis.Text.Instant
import Std.Time.DateTime.Timestamp

namespace MutationAnalysis

/-- The text of a file, if it can be read. -/
def readText (path : String) : IO (Option String) := do
  try
    return some (← IO.FS.readFile path)
  catch _ =>
    return none

/-- The time by the machine's clock. -/
def currentInstant : IO Text.Instant := do
  let now ← Std.Time.Timestamp.now
  return ⟨now.toNanosecondsSinceUnixEpoch.val.toNat⟩

/-- A fresh identifier for a run. -/
def randomUuid : IO Text.Uuid := do
  return .ofRandom (← IO.getRandomBytes 16).toList

/-- How the program is called. -/
def usage : String :=
  "usage: run [--workers N] [--fail-fast] [--timeout-floor-ms N] [--no-fork] "
    ++ "[--no-call-tree] [--json] JOB"

/-- The name of the program with its version. -/
def version : String := "mutjit 0.1.0"

/-- Runs a job and prints the report. -/
def runJob (options : Options) : IO UInt32 := do
  let runId ← randomUuid
  let startedAt ← currentInstant
  match options.run (← readText options.job) with
  | .error e =>
    IO.eprintln ("Error: " ++ e.message)
    return failureExitCode
  | .ok report =>
    if options.json then
      let finishedAt ← currentInstant
      let shown := report.toJson (.text runId.text) (.text startedAt.text) (.text finishedAt.text)
      IO.println shown.writeIndented
    else IO.println (report.text runId.text)
    return report.exitCode

end MutationAnalysis

open MutationAnalysis in
/-- Runs the job that the arguments name. -/
def main (arguments : List String) : IO UInt32 := do
  match Options.read (← IO.getEnv "MUTJIT_WORKERS") arguments with
  | .ok options => runJob options
  | .error stop =>
    match stop with
    | .help => IO.println usage
    | .version => IO.println version
    | .misuse => IO.eprintln usage
    return stop.exitCode
