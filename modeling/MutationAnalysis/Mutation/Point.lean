/-
Mutation points.

A point is an edit that could be made: an operator at an address of a module, with the tests
that reach its function and how far from each test's entry it is.  Its identifier is also
the name of the mutant's body.
-/
import MutationAnalysis.Json.Record
import MutationAnalysis.Mutation.Operator
import MutationAnalysis.Program.Json
import MutationAnalysis.Unit.Basic

namespace MutationAnalysis

structure MutationPoint where
  moduleId : String
  /-- The name of the function that the edit is in. -/
  function : String
  address : Address
  operator : Operator
  diagnostics : String
  location : Option Location
  /-- Tests that reach the function, with their distances, in order of discovery. -/
  reachableTests : List (String × Nat)
  deriving Repr, DecidableEq

namespace MutationPoint

/-- The identifier of an edit: module, address and operator. -/
def identifierOf (moduleId : String) (address : Address) (operator : Operator) : String :=
  moduleId ++ "_" ++ address.text ++ "_" ++ operator.id

def identifier (p : MutationPoint) : String :=
  identifierOf p.moduleId p.address p.operator

/-- The key of the function that the edit is in. -/
def key (p : MutationPoint) : String :=
  SymbolName.key p.function p.moduleId

def addTest (p : MutationPoint) (test : String) (distance : Nat) : MutationPoint :=
  { p with reachableTests := p.reachableTests ++ [(test, distance)] }

end MutationPoint

/-- The point of an operator at an address of a unit, if the operator applies there. -/
def Operator.point? (o : Operator) (unit : ProgramUnit) (address : Address) :
    Option MutationPoint := do
  let f ← unit.program.functions[address.function]?
  let i ← f.instruction? address.block address.instruction
  if o.applies unit.program i then
    some ⟨unit.identifier, f.name, address, o, o.diagnostics i, i.location, []⟩
  else none

open Json

def Operator.toJson (o : Operator) : Json := .text o.name

def Operator.ofJson? : Json → Option Operator :=
  plainCase? (Operator.all.map fun o => (o.name, o))

def Address.toJson (a : Address) : Json :=
  record [("function", .nat a.function), ("block", .nat a.block),
    ("instruction", .nat a.instruction)]

def Address.ofJson? (v : Json) : Option Address := do
  let r ← v.fields? ["function", "block", "instruction"]
  let index := natBelow? UInt64.size
  return ⟨← r.required 0 index, ← r.required 1 index, ← r.required 2 index⟩

def MutationPoint.toJson (p : MutationPoint) : Json :=
  record [("module_id", .text p.moduleId), ("function", .text p.function),
    ("address", p.address.toJson), ("operator", p.operator.toJson),
    ("diagnostics", .text p.diagnostics), ("location", orNull Location.toJson p.location),
    ("reachable_tests",
      listOf (fun (test, distance) => .array [.text test, .nat distance]) p.reachableTests)]

def MutationPoint.ofJson? (v : Json) : Option MutationPoint := do
  let r ← v.fields? ["module_id", "function", "address", "operator", "diagnostics", "location",
    "reachable_tests"]
  return ⟨← r.required 0 string?, ← r.required 1 string?, ← r.required 2 Address.ofJson?,
    ← r.required 3 Operator.ofJson?, ← r.required 4 string?, ← r.optional 5 Location.ofJson?,
    ← r.required 6 (list? (pair? string? (natBelow? UInt32.size)))⟩

end MutationAnalysis
