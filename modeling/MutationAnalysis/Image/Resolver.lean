/-
What names stand for when an image is linked.

A resolver is a function from names to definitions.  Resolvers are asked one after the other and the
first definition counts.
-/
import MutationAnalysis.Error
import MutationAnalysis.Image.Native

namespace MutationAnalysis

/-- A cell of a loader: cells belong to the image of one generation and are numbered within it. -/
structure CellRef where
  generation : Nat
  index : Nat
  deriving Repr, DecidableEq

/-- What a symbol stands for. -/
inductive Definition where
  /-- A function that is in the image's table already. -/
  | address (n : Nat)
  /-- A function of the host, which is put into the table when it is first needed. -/
  | native (n : Native)
  | cell (c : CellRef)
  | constant (value : Int32)
  deriving Repr, DecidableEq

/-- The spelling in diagnostics. -/
def Definition.text : Definition → String
  | address n => "Address(" ++ toString n ++ ")"
  | native n => "Native(" ++ n.name ++ ")"
  | cell c => "Cell(" ++ toString c.generation ++ ", " ++ toString c.index ++ ")"
  | constant value => "Constant(" ++ toString value.toInt ++ ")"

abbrev Resolver := String → Option Definition

namespace Resolver

/-- Asks resolvers in order. -/
def chain (resolvers : List Resolver) : Resolver := fun name =>
  resolvers.findSome? fun resolve => resolve name

/-- The definition of a name that has to have one. -/
def resolve (r : Resolver) (name : String) : Except Error Definition :=
  match r name with
  | some d => .ok d
  | none => .error ⟨.symbolNotFound, name⟩

/-- Functions that the engine puts in the place of the host's, whose own ones would end the worker
or could not call back. -/
def overrides : Resolver
  | "exit" => some (.native .emulatedExit)
  | "atexit" => some (.native .emulatedAtExit)
  | "__cxa_atexit" => some (.native .emulatedCxaAtExit)
  | _ => none

/-- Functions of the host process. -/
def hostProcess : Resolver
  | "exit" => some (.native .processExit)
  | "atexit" => some (.native .processAtExit)
  | "abort" => some (.native .abort)
  | "putchar" => some (.native .putChar)
  | "print_i32" => some (.native .printI32)
  | _ => none

/-- Names with fixed definitions. -/
def ofList (definitions : List (String × Definition)) : Resolver := fun name =>
  definitions.lookup name

end Resolver

end MutationAnalysis
