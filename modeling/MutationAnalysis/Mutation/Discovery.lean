/-
Finding the mutation points of functions that tests reach.

The finder takes records of the form "this test reaches this function at this distance".  The first
record of a function creates its points, operator by operator and in order of the instructions;
every later record adds its test to the points that exist.  Points come out in the order in which
their functions were first recorded.
-/
import MutationAnalysis.Mutation.Point

namespace MutationAnalysis

/-- Addresses of the instructions of a function, in order. -/
def Function.addresses (index : Nat) (f : Function) : List Address :=
  f.blocks.zipIdx.flatMap fun (b, block) =>
    (List.range b.instructions.length).map fun i => ⟨index, block, i⟩

/-- The points of a function of a unit, the operators one after the other. -/
def ProgramUnit.points (unit : ProgramUnit) (operators : List Operator) (function : Nat) :
    List MutationPoint :=
  match unit.program.functions[function]? with
  | none => []
  | some f => operators.flatMap fun o => (f.addresses function).filterMap (o.point? unit)

/-- The points of one function, by module identifier and function index. -/
structure FoundFunction where
  moduleId : String
  function : Nat
  points : List MutationPoint

structure Finder where
  operators : List Operator
  found : List FoundFunction

namespace Finder

def new (operators : List Operator) : Finder := ⟨operators, []⟩

/-- Adds a test to the points of the entry of the given key, if there is one. -/
def addTest (moduleId : String) (function : Nat) (test : String) (distance : Nat) :
    List FoundFunction → Option (List FoundFunction)
  | [] => none
  | e :: rest =>
    if e.moduleId = moduleId ∧ e.function = function then
      some ({ e with points := e.points.map (·.addTest test distance) } :: rest)
    else (addTest moduleId function test distance rest).map (e :: ·)

/-- Takes the record that a test reaches a function of a unit. -/
def record (finder : Finder) (unit : ProgramUnit) (function : Nat) (test : String)
    (distance : Nat) : Finder :=
  match addTest unit.identifier function test distance finder.found with
  | some found => { finder with found }
  | none =>
    let points := (unit.points finder.operators function).map (·.addTest test distance)
    { finder with found := finder.found ++ [⟨unit.identifier, function, points⟩] }

/-- All points in order of discovery. -/
def points (finder : Finder) : List MutationPoint :=
  finder.found.flatMap (·.points)

end Finder

end MutationAnalysis
