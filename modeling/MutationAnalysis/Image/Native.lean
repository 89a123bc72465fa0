/-
Functions that the host provides.

Programs may call them by name: to end, to have functions run at their end, and to write.  Two more
are the probes of instrumented code.  Ending comes in two forms: the one that the engine puts in its
place unwinds the program only, the host's own ends the whole process.
-/
import MutationAnalysis.Image.HostState
import MutationAnalysis.Program.Basic
import MutationAnalysis.Wasm.Machine

namespace MutationAnalysis

open Wasm

inductive Native where
  | emulatedExit
  | emulatedAtExit
  | emulatedCxaAtExit
  | processExit
  | processAtExit
  | abort
  | putChar
  | printI32
  | enterFunction
  | leaveFunction
  deriving Repr, DecidableEq

namespace Native

def name : Native → String
  | emulatedExit => "EmulatedExit"
  | emulatedAtExit => "EmulatedAtExit"
  | emulatedCxaAtExit => "EmulatedCxaAtExit"
  | processExit => "ProcessExit"
  | processAtExit => "ProcessAtExit"
  | abort => "Abort"
  | putChar => "PutChar"
  | printI32 => "PrintI32"
  | enterFunction => "EnterFunction"
  | leaveFunction => "LeaveFunction"

def signature : Native → Signature
  | emulatedExit | processExit => ⟨1, .void⟩
  | emulatedAtExit | processAtExit => ⟨1, .int⟩
  | emulatedCxaAtExit => ⟨3, .int⟩
  | abort => ⟨0, .void⟩
  | putChar => ⟨1, .int⟩
  | printI32 | enterFunction | leaveFunction => ⟨1, .void⟩

def type (n : Native) : FuncType := ⟨n.signature.numParams.toNat, n.signature.returnsValue⟩

/-- What a function does with its arguments, of which it gets as many as its signature says. -/
def call (n : Native) (arguments : List Word) (memory : Memory) (state : HostState) :
    HostAnswer HostState :=
  match n, arguments with
  | emulatedExit, [code] => .raised (.exit code.toInt32) memory state
  | emulatedAtExit, [f] => .returned [0] memory (state.register ⟨f.toNat, none⟩)
  | emulatedCxaAtExit, [f, argument, _] =>
    .returned [0] memory (state.register ⟨f.toNat, some argument⟩)
  | processExit, [code] => .raised (.endProcess code.toInt32) memory state
  | processAtExit, [_] =>
    .raised (.failure "atexit: the host process cannot run JIT-compiled destructors") memory state
  | abort, [] => .raised (.failure "abort() called") memory state
  | putChar, [c] => .returned [c] memory (state.write [c.toUInt8])
  | printI32, [value] =>
    .returned [] memory (state.write (toString value.toInt32.toInt).toUTF8.toList)
  | enterFunction, [index] => .returned [] memory (state.enter index.toNat)
  | leaveFunction, [_] => .returned [] memory state.leave
  | _, _ => .raised (.failure "wrong number of arguments") memory state

/-- The host that programs run on. -/
def host : Host Native HostState := ⟨type, call⟩

end Native

end MutationAnalysis
