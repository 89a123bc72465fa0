/-
Configuration of a run.

Every field has a default.  The number of workers may be left to the machine.  A normalized
configuration has at least one worker and a multiplier of at least one.
-/
import MutationAnalysis.Duration
import MutationAnalysis.Json.Record

namespace MutationAnalysis

/-- How test bodies are isolated: in a copy of the process, or not at all. -/
inductive Isolation where
  | fork
  | none
  deriving Repr, DecidableEq

def Isolation.name : Isolation → String
  | fork => "fork"
  | none => "none"

/-- Limits of the machine that runs compiled code. -/
structure ExecutionConfig where
  /-- Bytes of stack. -/
  maxStack : Nat
  memoryPages : Nat
  deriving Repr, DecidableEq

def ExecutionConfig.default : ExecutionConfig := ⟨512 * 1024, 16⟩

structure EngineConfig where
  /-- Worker threads, as many as the machine has when left open. -/
  workers : Option Nat
  failFast : Bool
  timeoutFloorMs : Nat
  timeoutMultiplier : Nat
  maxDistance : Nat
  callTree : Bool
  sandbox : Isolation
  execution : ExecutionConfig
  deriving Repr, DecidableEq

namespace EngineConfig

def default : EngineConfig := ⟨none, false, 30000, 10, 128, true, .fork, .default⟩

def normalize (c : EngineConfig) : EngineConfig :=
  { c with
    workers := c.workers.map (Nat.max · 1)
    timeoutMultiplier := Nat.max c.timeoutMultiplier 1 }

/-- Workers when the machine is asked for no more than one. -/
def workerCount (c : EngineConfig) : Nat := c.workers.getD 1

def timeoutFloor (c : EngineConfig) : Duration := .ofMilliseconds c.timeoutFloorMs

/-- The time limit of a test that takes the given time on the unmutated program. -/
def testTimeout (c : EngineConfig) (baseline : Duration) : Duration :=
  (baseline.scale c.timeoutMultiplier).max c.timeoutFloor

end EngineConfig

open Json

def Isolation.ofJson? : Json → Option Isolation :=
  plainCase? [("fork", .fork), ("none", .none)]

def ExecutionConfig.ofJson? (v : Json) : Option ExecutionConfig := do
  let r ← v.fields? ["max_wasm_stack", "memory_pages"]
  let d := default
  return ⟨← r.withDefault 0 (natBelow? UInt64.size) d.maxStack,
    ← r.withDefault 1 (natBelow? UInt32.size) d.memoryPages⟩

def EngineConfig.ofJson? (v : Json) : Option EngineConfig := do
  let r ← v.fields? ["workers", "fail_fast", "timeout_floor_ms", "timeout_multiplier",
    "max_distance", "call_tree", "sandbox", "execution"]
  let d := default
  return ⟨← r.withDefault 0 (fun v => (v.natBelow? UInt64.size).map some) d.workers,
    ← r.withDefault 1 bool? d.failFast, ← r.withDefault 2 (natBelow? UInt64.size) d.timeoutFloorMs,
    ← r.withDefault 3 (natBelow? UInt32.size) d.timeoutMultiplier,
    ← r.withDefault 4 (natBelow? UInt32.size) d.maxDistance, ← r.withDefault 5 bool? d.callTree,
    ← r.withDefault 6 Isolation.ofJson? d.sandbox,
    ← r.withDefault 7 ExecutionConfig.ofJson? d.execution⟩

def ExecutionConfig.toJson (c : ExecutionConfig) : Json :=
  record [("max_wasm_stack", .nat c.maxStack), ("memory_pages", .nat c.memoryPages)]

def EngineConfig.toJson (c : EngineConfig) : Json :=
  record [("workers", orNull .nat c.workers), ("fail_fast", .bool c.failFast),
    ("timeout_floor_ms", .nat c.timeoutFloorMs), ("timeout_multiplier", .nat c.timeoutMultiplier),
    ("max_distance", .nat c.maxDistance), ("call_tree", .bool c.callTree),
    ("sandbox", .text c.sandbox.name), ("execution", c.execution.toJson)]

end MutationAnalysis
