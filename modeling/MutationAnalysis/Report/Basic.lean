/-
The report of a run.

There is one record per result, in ascending order of mutation points and then of
tests, and the summary of them all.
-/
import MutationAnalysis.Campaign.Worker
import MutationAnalysis.Report.Summary
import MutationAnalysis.Text.Tenths
import MutationAnalysis.Text.Uuid

namespace MutationAnalysis

/-- One test against one mutant, as it is reported. -/
structure ResultRecord where
  mutationPoint : String
  test : String
  status : Status
  runningTimeMs : Nat
  distance : Nat
  diagnostics : String
  location : Option Location
  output : String
  deriving Repr, DecidableEq

def ResultRecord.of (r : MutationResult) : ResultRecord where
  mutationPoint := r.point.identifier
  test := r.test
  status := r.execution.status
  runningTimeMs := r.execution.runningTime.milliseconds
  distance := r.distance
  diagnostics := r.point.diagnostics
  location := r.point.location
  output := r.execution.output

/-- Whether a record comes no later than another. -/
def ResultRecord.notAfter (a b : ResultRecord) : Bool :=
  a.mutationPoint < b.mutationPoint || (a.mutationPoint == b.mutationPoint && !(b.test < a.test))

structure Report where
  records : List ResultRecord
  summary : Summary
  deriving Repr, DecidableEq

namespace Report

def of (results : List MutationResult) : Report :=
  let records := (results.map ResultRecord.of).mergeSort ResultRecord.notAfter
  ⟨records, .ofResults (records.map fun r => (r.mutationPoint, r.status))⟩

def hasInvalid (r : Report) : Bool := r.records.any (·.status == .invalid)

/-- The share of killed mutants as text. -/
def scoreText (s : Summary) : String :=
  match s.score with
  | some score => ", score " ++ Text.tenths (score * 100) ++ "%"
  | none => ""

/-- The line of a mutant that survived. -/
def survivorText (r : Report) (survivor : String) : String :=
  let diagnostics := ((r.records.find? (·.mutationPoint == survivor)).map (·.diagnostics)).getD ""
  "\n  survived: " ++ survivor ++ " (" ++ diagnostics ++ ")"

/-- A short text about the run of an identifier. -/
def text (r : Report) (runId : String) : String :=
  let s := r.summary
  "run " ++ runId ++ ": " ++ toString s.mutants ++ " mutants, " ++ toString s.killed ++ " killed, "
    ++ toString s.survived ++ " survived, " ++ toString s.invalid ++ " invalid"
    ++ scoreText s ++ String.join (s.survivors.map r.survivorText)

end Report

open Json

def ResultRecord.toJson (r : ResultRecord) : Json :=
  record [("mutation_point", .text r.mutationPoint), ("test", .text r.test),
    ("status", .text r.status.name), ("running_time_ms", .nat r.runningTimeMs),
    ("distance", .nat r.distance), ("diagnostics", .text r.diagnostics),
    ("location", orNull Location.toJson r.location), ("output", .text r.output)]

def Summary.toJson (s : Summary) : Json :=
  record [("mutants", .nat s.mutants), ("killed", .nat s.killed), ("survived", .nat s.survived),
    ("invalid", .nat s.invalid), ("survivors", listOf .text s.survivors)]

/-- The whole report with the identifier of the run and the times of its start and end. -/
def Report.toJson (r : Report) (runId startedAt finishedAt : Json) : Json :=
  record [("run_id", runId), ("started_at", startedAt), ("finished_at", finishedAt),
    ("records", listOf ResultRecord.toJson r.records), ("summary", r.summary.toJson)]

end MutationAnalysis
