/-
The command line.

`run JOB` runs a job.  Flags change the job's configuration; the number of workers may also come
from the environment, where a flag wins.  Words are taken from left to right, and the first one that
is a question (for help or the version) or that is not expected where it stands ends the reading: a
flag given twice, a number that is none, a second job.
-/
import MutationAnalysis.Job
import MutationAnalysis.Report.Basic

namespace MutationAnalysis

/-- What the arguments ask for. -/
structure Options where
  job : String
  workers : Option Nat
  failFast : Bool
  timeoutFloorMs : Option Nat
  noFork : Bool
  noCallTree : Bool
  json : Bool
  deriving Repr, DecidableEq

/-- Why the reading of arguments ends without options. -/
inductive Stop where
  /-- The help text is asked for. -/
  | help
  /-- The version is asked for. -/
  | version
  /-- A word is not expected where it stands, or one is missing. -/
  | misuse
  deriving Repr, DecidableEq

/-- Exit status when there is nothing to run: a question is answered, a misuse fails. -/
def Stop.exitCode : Stop → UInt32
  | help | version => 0
  | misuse => 2

namespace Options

/-- Flags without a value. -/
def switches : List String := ["--fail-fast", "--no-fork", "--no-call-tree", "--json"]

/-- Flags with a value. -/
def settings : List String := ["--workers", "--timeout-floor-ms"]

/-- A number of 64 bits: digits, which a plus sign may precede. -/
def number? (s : String) : Option Nat :=
  let digits := match s.toList with
    | '+' :: rest => rest
    | cs => cs
  if digits.isEmpty || !digits.all Json.isDigit then none
  else
    let n := digits.foldl (fun n c => 10 * n + (c.toNat - 48)) 0
    if n < UInt64.size then some n else none

/-- The same, where a text that is no number is a misuse. -/
def number (s : String) : Except Stop Nat :=
  match number? s with
  | some n => .ok n
  | none => .error .misuse

/-- What the words read so far have set. -/
structure Words where
  switches : List String
  settings : List (String × Nat)
  job : Option String
  deriving Repr, DecidableEq

namespace Words

/-- Takes a switch, which is given at most once. -/
def addSwitch (w : Words) (name : String) : Except Stop Words :=
  if w.switches.contains name then .error .misuse
  else .ok { w with switches := name :: w.switches }

/-- Takes a setting, which is given at most once, with its value. -/
def addSetting (w : Words) (name value : String) : Except Stop Words := do
  let n ← number value
  if (w.settings.lookup name).isSome then .error .misuse
  else .ok { w with settings := (name, n) :: w.settings }

/-- Takes a plain word: the file of the job, which is named once and is not empty. -/
def addJob (w : Words) (word : String) : Except Stop Words :=
  if word.isEmpty || w.job.isSome then .error .misuse
  else .ok { w with job := some word }

end Words

/-- Whether a word asks for help: the flag, or a cluster of one-letter flags
that begins with its letter. -/
def asksForHelp (word : String) : Bool := word == "--help" || word.startsWith "-h"

/-- Whether a word asks for the version, likewise. -/
def asksForVersion (word : String) : Bool := word == "--version" || word.startsWith "-V"

/-- A setting with its value in one word, joined by an equals sign. -/
def joined? (word : String) : Option (String × String) :=
  settings.findSome? fun name =>
    (SymbolName.after? (name ++ "=") word).map fun value => (name, value)

/-- Takes words from left to right.  After a word of two hyphens only plain words follow. -/
def readWords (w : Words) : List String → Except Stop Words
  | [] => .ok w
  | "--" :: rest => rest.foldlM Words.addJob w
  | word :: rest =>
    if asksForHelp word then .error .help
    else if switches.contains word then do readWords (← w.addSwitch word) rest
    else if settings.contains word then
      match rest with
      | [] => .error .misuse
      | value :: rest => do readWords (← w.addSetting word value) rest
    else
      match joined? word with
      | some (name, value) => do readWords (← w.addSetting name value) rest
      | none =>
        if word.startsWith "-" && word ≠ "-" then .error .misuse
        else do readWords (← w.addJob word) rest

/-- Reads the arguments, with the number of workers that the environment asks for.  The environment
counts only once all words are read and none of them says how many. -/
def read (environment : Option String) : List String → Except Stop Options
  | "run" :: words => do
    let w ← readWords ⟨[], [], none⟩ words
    let some job := w.job | .error .misuse
    let workers ← match w.settings.lookup "--workers", environment with
      | some n, _ => .ok (some n)
      | none, some value => some <$> number value
      | none, none => .ok none
    let has (s : String) := w.switches.contains s
    return ⟨job, workers, has "--fail-fast", w.settings.lookup "--timeout-floor-ms",
      has "--no-fork", has "--no-call-tree", has "--json"⟩
  | ["help"] | ["help", "run"] | ["help", "help"] => .error .help
  | word :: _ =>
    .error (if asksForHelp word then .help else if asksForVersion word then .version else .misuse)
  | [] => .error .misuse

/-- The configuration of a job as the flags change it. -/
def apply (o : Options) (c : EngineConfig) : EngineConfig :=
  { c with
    workers := match o.workers with
      | some n => some n
      | none => c.workers
    failFast := o.failFast || c.failFast
    timeoutFloorMs := o.timeoutFloorMs.getD c.timeoutFloorMs
    sandbox := if o.noFork then .none else c.sandbox
    callTree := !o.noCallTree && c.callTree }

/-- Runs the job in a file, of which the text is given if it can be read. -/
def run (o : Options) (text : Option String) : Except JobError Report := do
  let job ← Job.load o.job text
  let results ← { job with config := o.apply job.config }.run
  return .of results

end Options

/-- Exit status of a run with a report: executions that were invalid show. -/
def Report.exitCode (r : Report) : UInt32 := if r.hasInvalid then 2 else 0

/-- Exit status when there is no report. -/
def failureExitCode : UInt32 := 1

end MutationAnalysis
