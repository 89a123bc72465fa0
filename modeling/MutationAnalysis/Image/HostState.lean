/-
What an image's host keeps while a test runs.

The host records calls, remembers which functions are to run when the program ends, and collects
what the program writes.  All but the recorded mapping is cleared before each test.
-/
import MutationAnalysis.Text.Lossy
import MutationAnalysis.Trace.Recorder

namespace MutationAnalysis

/-- A function to run at the end, by address, with its argument if it takes one. -/
structure Destructor where
  function : Nat
  argument : Option UInt32
  deriving Repr, DecidableEq

structure HostState where
  recorder : Recorder
  /-- Registered functions, the latest first. -/
  destructors : List Destructor
  /-- Bytes that the program wrote. -/
  output : Array UInt8
  deriving Repr, DecidableEq

namespace HostState

def empty : HostState := ⟨.empty, [], #[]⟩

/-- Clears what one test leaves behind for the next. -/
def resetRun (s : HostState) : HostState :=
  ⟨{ s.recorder with stack := [] }, [], #[]⟩

def beginTrace (s : HostState) (size : Nat) : HostState := { s with recorder := .start size }

/-- Gives the mapping away and keeps an empty one. -/
def takeMapping (s : HostState) : Array Nat × HostState :=
  (s.recorder.mapping, { s with recorder := { s.recorder with mapping := #[] } })

def enter (s : HostState) (index : Nat) : HostState :=
  match s with
  | ⟨recorder, destructors, output⟩ => ⟨recorder.enter index, destructors, output⟩

def leave (s : HostState) : HostState := { s with recorder := s.recorder.leave }

def register (s : HostState) (d : Destructor) : HostState :=
  { s with destructors := d :: s.destructors }

def write (s : HostState) (bytes : List UInt8) : HostState :=
  match s with
  | ⟨recorder, destructors, output⟩ => ⟨recorder, destructors, bytes.foldl Array.push output⟩

/-- Gives the output away as text. -/
def takeOutput (s : HostState) : String × HostState :=
  (Text.decodeLossy s.output.toList, { s with output := #[] })

end HostState

end MutationAnalysis
