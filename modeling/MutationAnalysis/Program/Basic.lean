/-
Programs of the intermediate representation.

A program holds functions made of basic blocks, the declarations of functions that are defined
elsewhere, and the names of the constructors that run before a test.  Execution of a function
starts in block 0.  Function indices, block indices and positions are positions in these lists.
-/
import MutationAnalysis.Program.Instruction

namespace MutationAnalysis

/-- A sequence of instructions that is entered at its start. -/
structure Block where
  instructions : List Instruction
  deriving Repr, DecidableEq

/-- The last instruction, if it ends the block. -/
def Block.terminator (b : Block) : Option Instruction :=
  b.instructions.getLast?.filter (·.opcode.isTerminator)

inductive ReturnType where
  | void
  | int
  deriving Repr, DecidableEq

def ReturnType.name : ReturnType → String
  | .void => "Void"
  | .int => "Int"

/-- How a function is called: with so many words, giving one or none back. -/
structure Signature where
  numParams : UInt64
  returnType : ReturnType
  deriving Repr, DecidableEq

namespace Signature

def returnsValue (s : Signature) : Bool := s.returnType == .int

/-- The spelling in diagnostics. -/
def text (s : Signature) : String :=
  "Signature \x7b num_params: " ++ toString s.numParams ++ ", return_type: " ++ s.returnType.name
    ++ " \x7d"

end Signature

structure Function where
  name : String
  numParams : UInt64
  numLocals : UInt64
  blocks : List Block
  returnType : ReturnType
  deriving Repr, DecidableEq

namespace Function

def signature (f : Function) : Signature := ⟨f.numParams, f.returnType⟩

/-- The instructions in order, the blocks one after the other. -/
def instructions (f : Function) : List Instruction :=
  f.blocks.flatMap (·.instructions)

def instruction? (f : Function) (block position : Nat) : Option Instruction := do
  let b ← f.blocks[block]?
  b.instructions[position]?

/-- Registers that the instructions need: one more than the greatest number used. -/
def usedRegisters (f : Function) : Nat :=
  (f.instructions.flatMap (·.registers)).foldl (fun n r => max n (r.toNat + 1)) 0

/-- Registers of the function, its parameters included, counted in 64 bits. -/
def registerCount (f : Function) : UInt64 :=
  max (UInt64.ofNat f.usedRegisters) (f.numParams + f.numLocals)

end Function

/-- A function that another module or the host defines. -/
structure Declaration where
  name : String
  numParams : UInt64
  returnType : ReturnType
  deriving Repr, DecidableEq

def Declaration.signature (d : Declaration) : Signature := ⟨d.numParams, d.returnType⟩

structure Program where
  functions : List Function
  declarations : List Declaration
  /-- Functions that run before every test, in order. -/
  constructors : List String
  version : UInt32
  deriving Repr, DecidableEq

/-- Puts a name into an ascending list, unless it is there already. -/
def insertName (name : String) : List String → List String
  | [] => [name]
  | n :: rest =>
    if name < n then name :: n :: rest
    else if name = n then n :: rest
    else n :: insertName name rest

/-- The names of a list, each once, in ascending order of their code points, which
is also that of their bytes. -/
def sortedNames (names : List String) : List String :=
  names.foldl (fun acc name => insertName name acc) []

namespace Program

def instructions (p : Program) : List Instruction :=
  p.functions.flatMap (·.instructions)

/-- The position of the first function of a name. -/
def functionIndex? (p : Program) (name : String) : Option Nat :=
  p.functions.findIdx? (·.name == name)

/-- The first function of a name. -/
def function? (p : Program) (name : String) : Option Function :=
  p.functions.find? (·.name == name)

/-- How a name is called: as the function defined under it, else as it is declared. -/
def signature? (p : Program) (name : String) : Option Signature :=
  match p.function? name with
  | some f => some f.signature
  | none => (p.declarations.find? (·.name == name)).map (·.signature)

/-- The names that direct calls use and that are not defined here, ascending. -/
def undefinedSymbols (p : Program) : List String :=
  sortedNames <| p.instructions.filterMap fun i =>
    if i.opcode = .call then i.callee.filter fun name => (p.function? name).isNone else none

/-- The names of the cells that indirect calls go through, ascending. -/
def cells (p : Program) : List String :=
  sortedNames <| p.instructions.filterMap fun i =>
    if i.opcode = .callIndirect then i.callee else none

end Program

end MutationAnalysis
