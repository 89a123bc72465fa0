/-
Jobs.

A job names the modules, the tests and the configuration of one run, and the operators to apply, all
of them if it names none.
-/
import MutationAnalysis.Campaign.Engine
import MutationAnalysis.Json.Reader

namespace MutationAnalysis

structure ModuleSpec where
  path : String
  role : Role
  program : Program
  deriving Repr, DecidableEq

structure TestSpec where
  name : String
  entry : String
  arguments : List String
  deriving Repr, DecidableEq

structure Job where
  modules : List ModuleSpec
  tests : List TestSpec
  config : EngineConfig
  operators : List String
  deriving Repr, DecidableEq

/-- Why a job does not come to a report. -/
inductive JobError where
  | unreadable (path : String)
  | unparsable (path : String)
  | unknownOperator (id : String)
  | engine (e : Error)
  deriving Repr, DecidableEq

def JobError.message : JobError → String
  | unreadable path => "failed to read job file " ++ path
  | unparsable path => "failed to parse job file " ++ path
  | unknownOperator id => "unknown mutation operator '" ++ id ++ "'"
  | engine e => e.message

open Json

def Role.ofJson? : Json → Option Role :=
  plainCase? [("source", .source), ("test", .test)]

def ModuleSpec.ofJson? (v : Json) : Option ModuleSpec := do
  let r ← v.fields? ["path", "role", "program"]
  return ⟨← r.required 0 string?, ← r.required 1 Role.ofJson?, ← r.required 2 Program.ofJson?⟩

def TestSpec.ofJson? (v : Json) : Option TestSpec := do
  let r ← v.fields? ["name", "entry", "arguments"]
  return ⟨← r.required 0 string?, ← r.required 1 string?, ← r.withDefault 2 (list? string?) []⟩

namespace Job

def ofJson? (v : Json) : Option Job := do
  let r ← v.fields? ["modules", "tests", "config", "operators"]
  return ⟨← r.required 0 (list? ModuleSpec.ofJson?), ← r.required 1 (list? TestSpec.ofJson?),
    ← r.withDefault 2 EngineConfig.ofJson? .default, ← r.withDefault 3 (list? string?) []⟩

/-- The job in the file of a path, of which the text is given if it can be read. -/
def load (path : String) (text : Option String) : Except JobError Job :=
  match text with
  | none => .error (.unreadable path)
  | some text =>
    match (parse? text).bind ofJson? with
    | some job => .ok job
    | none => .error (.unparsable path)

def units (j : Job) : List ProgramUnit :=
  j.modules.map fun m => .new m.program m.role m.path

def testList (j : Job) : List Test :=
  j.tests.map fun t => .new t.name t.entry t.arguments

def operatorList (j : Job) : Except JobError (List Operator) :=
  if j.operators.isEmpty then .ok Operator.all
  else
    j.operators.mapM fun id =>
      match Operator.ofId? id with
      | some o => .ok o
      | none => .error (.unknownOperator id)

/-- The engine of a job. -/
def engine (j : Job) : Except JobError Engine := do
  -- the configuration is looked at before the operators
  let _ ← (Engine.new j.config []).mapError .engine
  let operators ← j.operatorList
  (Engine.new j.config operators).mapError .engine

/-- Runs a job. -/
def run (j : Job) : Except JobError (List MutationResult) := do
  let engine ← j.engine
  (engine.run j.units j.testList).mapError .engine

end Job

end MutationAnalysis
