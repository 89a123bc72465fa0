/-
Running a test in a loaded image.

A run calls the constructors, then the entry, then the registered destructors, the latest first.
Status zero, or a return without a value, is a pass and any other status a failure; running out of
time is a timeout and any other end a crash, after neither of which destructors run.  A test whose
entry is missing or of the wrong type is invalid.
-/
import MutationAnalysis.Image.Loader
import MutationAnalysis.Outcome
import MutationAnalysis.TestRun.Arguments

namespace MutationAnalysis

open Wasm

/-- How a run ends: with a verdict, or with the whole process at the program's will. -/
inductive RunEnd where
  | status (s : Status)
  | processEnd (code : Int32)
  deriving Repr, DecidableEq

/-- What a run gives: an outcome, or nothing because the process ended. -/
inductive RunResult where
  | outcome (o : Outcome)
  | processEnd (code : Int32)
  deriving Repr, DecidableEq

namespace TestRun

/-- The program name given to tests as their first argument. -/
def defaultProgramName : String := "mutjit"

/-- What the end of a call that did not return says. -/
def endOfFailure : Ending → RunEnd
  | .raised (.exit code) => .status (if code = 0 then .passed else .failed)
  | .raised (.endProcess code) => .processEnd code
  | .trapped .interrupt => .status .timeout
  | _ => .status .crashed

/-- Calls the function at an address with at most one argument; none if it returned. -/
def callAddress (l : Loader) (address : Nat) (argument : Option Word) : Option RunEnd × Loader :=
  match l.function? address with
  | none => (some (.status .crashed), l)
  | some ref =>
    if (l.type? ref).map (·.params) = some argument.toList.length then
      match l.call ref argument.toList with
      | (.returned _, l) => (none, l)
      | (ending, l) => (some (endOfFailure ending), l)
    else (some (.status .crashed), l)

/-- Calls constructors until one does not return. -/
def callConstructors (l : Loader) : List Nat → Option RunEnd × Loader
  | [] => (none, l)
  | address :: rest =>
    match callAddress l address none with
    | (none, l) => callConstructors l rest
    | (some e, l) => (some e, l)

/-- Calls destructors until one does not return. -/
def callDestructors (l : Loader) : List Destructor → Option RunEnd × Loader
  | [] => (none, l)
  | d :: rest =>
    match callAddress l d.function d.argument with
    | (none, l) => callDestructors l rest
    | (some e, l) => (some e, l)

/-- Runs the destructors that are pending when the program ends, unless it
crashed or ran out of time. -/
def finish (l : Loader) (e : RunEnd) : RunEnd × Loader :=
  match e with
  | .processEnd _ | .status .crashed | .status .timeout => (e, l)
  | .status _ =>
    let pending := l.host.destructors
    let l := l.mapHost fun h => { h with destructors := [] }
    match callDestructors l pending with
    | (none, l) => (e, l)
    | (some e, l) => (e, l)

/-- Calls the entry. -/
def callEntry (l : Loader) (ref : FuncRef Native) (arguments : List Word) : RunEnd × Loader :=
  match l.call ref arguments with
  | (.returned (result :: _), l) => (.status (if result = 0 then .passed else .failed), l)
  | (.returned [], l) => (.status .passed, l)
  | (ending, l) => (endOfFailure ending, l)

/-- Writes the program name and the arguments of a test to memory; gives their number. -/
def writeArguments (l : Loader) (programName : String) (test : Test) :
    Except Error (Nat × Loader) := do
  let arguments := programName :: test.arguments
  let some bytes := Arguments.layout? arguments
    | .error ⟨.invalidState, "arguments of '" ++ test.name ++ "' exceed "
        ++ toString argumentAreaSize ++ " bytes"⟩
  let some image := l.image
    | .error ⟨.invalidState, "image has no memory"⟩
  let some memory := image.memory.write? argumentArea bytes
    | .error ⟨.wasm, "Failed to write arguments: out of bounds"⟩
  return (arguments.length, l.setMemory memory)

/-- The entry of a test with its arguments, which are in memory then. -/
def prepareEntry (l : Loader) (programName : String) (test : Test) :
    Except Error (FuncRef Native × List Word × Loader) := do
  let some ref := (l.address? test.entry).bind l.function?
    | .error ⟨.notFound, "test entry '" ++ test.entry ++ "'"⟩
  match (l.type? ref).map (·.params) with
  | some 0 => return (ref, [], l)
  | some 2 =>
    let (count, l) ← writeArguments l programName test
    return (ref, [UInt32.ofNat count, UInt32.ofNat argumentArea], l)
  | n => .error ⟨.invalidState, "test entry '" ++ test.entry ++ "' takes " ++ toString (n.getD 0)
      ++ " parameters"⟩

/-- Runs the constructors, the entry and the destructors. -/
def execute (l : Loader) (ref : FuncRef Native) (arguments : List Word) : RunEnd × Loader :=
  match callConstructors l l.constructors with
  | (some e, l) => finish l e
  | (none, l) =>
    let (e, l) := callEntry l ref arguments
    finish l e

/-- The result of a run that ended, with the output that the host collected. -/
def conclude (e : RunEnd) (l : Loader) : RunResult × Loader :=
  match e with
  | .processEnd code => (.processEnd code, l)
  | .status s =>
    let (output, host) := l.host.takeOutput
    (.outcome ⟨s, output⟩, { l with host })

/-- Runs a test. -/
def run (programName : String) (l : Loader) (test : Test) : RunResult × Loader :=
  if l.isLoaded then
    let l := l.mapHost HostState.resetRun
    match prepareEntry l programName test with
    | .error e => (.outcome ⟨.invalid, e.message⟩, l)
    | .ok (ref, arguments, l) =>
      let (e, l) := execute l ref arguments
      conclude e l
  else (.outcome ⟨.invalid, Error.message ⟨.invalidState, "no image loaded"⟩⟩, l)

end TestRun

end MutationAnalysis
