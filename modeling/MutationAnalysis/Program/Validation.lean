/-
Which programs can be compiled.

`Program.validate` names the first fault of a program: duplicate names first, then every function
in order, its blocks and instructions in order, then the constructors.
-/
import MutationAnalysis.Error
import MutationAnalysis.Program.Basic

namespace MutationAnalysis

/-- What may be wrong with one instruction. -/
inductive InstructionFault where
  | notValues (opcode : Opcode) (expected : Nat)
  | noDestination (opcode : Opcode)
  | notOneImmediate
  | targetCount (opcode : Opcode) (expected : Nat)
  | noCondition
  | targetOutOfRange (target : UInt32)
  | noCallee
  | argumentsNotValues
  | undeclared (callee : String)
  | argumentCount (callee : String) (expected : UInt64) (given : Nat)
  | noResult (callee : String)
  | wrongReturn
  deriving Repr, DecidableEq

def InstructionFault.message : InstructionFault → String
  | notValues opcode n => opcode.name ++ " expects " ++ toString n ++ " value operands"
  | noDestination opcode => opcode.name ++ " requires a destination"
  | notOneImmediate => "LoadConst expects one immediate"
  | targetCount opcode n => opcode.name ++ " expects " ++ toString n ++ " targets"
  | noCondition => "BranchIf expects a condition first"
  | targetOutOfRange t => "branch target " ++ toString t ++ " out of range"
  | noCallee => "call without a callee symbol"
  | argumentsNotValues => "call arguments must be values"
  | undeclared callee => "call to undeclared function '" ++ callee ++ "'"
  | argumentCount callee expected given =>
    "'" ++ callee ++ "' takes " ++ toString expected ++ " arguments, " ++ toString given ++ " given"
  | noResult callee => "'" ++ callee ++ "' returns no value"
  | wrongReturn => "return does not match the function's return type"

/-- What may be wrong with a program. -/
inductive ProgramFault where
  | duplicateFunction (name : String)
  | tooManyParameters (function : String) (count : UInt64)
  | noBlocks (function : String)
  | emptyBlock (function : String) (block : Nat)
  | noTerminator (function : String) (block : Nat)
  | earlyTerminator (function : String) (block position : Nat)
  | instruction (function : String) (block position : Nat) (fault : InstructionFault)
  | constructorParameters (name : String)
  | constructorUndefined (name : String)
  deriving Repr, DecidableEq

/-- The most parameters of a function: registers have eight bits, and the stub of a mutated
function needs one register past its parameters. -/
def maxParams : UInt64 := 255

def ProgramFault.message : ProgramFault → String
  | duplicateFunction name => "Duplicate function '" ++ name ++ "'"
  | tooManyParameters f n =>
    "Function " ++ f ++ " takes " ++ toString n ++ " parameters, at most " ++ toString maxParams
      ++ " are supported"
  | noBlocks f => "Function " ++ f ++ " has no basic blocks"
  | emptyBlock f b => "Function " ++ f ++ " block " ++ toString b ++ " is empty"
  | noTerminator f b =>
    "Function " ++ f ++ " block " ++ toString b ++ " does not end with a terminator"
  | earlyTerminator f b i =>
    "Function " ++ f ++ " block " ++ toString b ++ ": terminator at position " ++ toString i
  | instruction f b i fault =>
    "Function " ++ f ++ " block " ++ toString b ++ " instruction " ++ toString i ++ ": "
      ++ fault.message
  | constructorParameters name => "Constructor '" ++ name ++ "' must not take parameters"
  | constructorUndefined name => "Constructor '" ++ name ++ "' is not defined"

def ProgramFault.toError (f : ProgramFault) : Error := ⟨.validation, f.message⟩

/-- Raises a fault unless the condition holds. -/
def require {ε : Type} (condition : Bool) (fault : ε) : Except ε Unit :=
  if condition then .ok () else .error fault

namespace Instruction

/-- The operands are so many values. -/
def requireValues (i : Instruction) (n : Nat) : Except InstructionFault Unit :=
  require (i.operands.length == n && i.operands.all (·.isValue)) (.notValues i.opcode n)

def requireDest (i : Instruction) : Except InstructionFault Unit :=
  require i.dest.isSome (.noDestination i.opcode)

/-- The operands name so many blocks, all of them among the first `blocks`. -/
def validateTargets (i : Instruction) (expected blocks : Nat) (condition : Bool) :
    Except InstructionFault Unit := do
  require (i.successors.length == expected) (.targetCount i.opcode expected)
  require condition .noCondition
  match i.successors.find? fun t => blocks ≤ t.toNat with
  | some t => .error (.targetOutOfRange t)
  | none => .ok ()

/-- A call names a symbol and passes values; a direct one agrees with the callee's signature. -/
def validateCall (p : Program) (i : Instruction) : Except InstructionFault Unit := do
  match i.callee with
  | none => .error .noCallee
  | some callee =>
    require (i.callArguments.all (·.isValue)) .argumentsNotValues
    if i.opcode = .callIndirect then .ok ()
    else
      match p.signature? callee with
      | none => .error (.undeclared callee)
      | some signature =>
        require (signature.numParams.toNat == i.callArguments.length)
          (.argumentCount callee signature.numParams i.callArguments.length)
        require (i.dest.isNone || signature.returnsValue) (.noResult callee)

/-- What the operands of a return are depends on the function's return type. -/
def validateReturn (returnType : ReturnType) (i : Instruction) : Except InstructionFault Unit :=
  match returnType, i.operands with
  | .void, [] => .ok ()
  | .int, [operand] => require operand.isValue .wrongReturn
  | _, _ => .error .wrongReturn

def validate (p : Program) (f : Function) (i : Instruction) : Except InstructionFault Unit :=
  match i.opcode with
  | .neg | .not | .copy | .load => do
    i.requireValues 1
    i.requireDest
  | .loadConst => do
    i.requireDest
    match i.operands with
    | [.immediate _] => .ok ()
    | _ => .error .notOneImmediate
  | .store => i.requireValues 2
  | .branch => i.validateTargets 1 f.blocks.length true
  | .branchIf => i.validateTargets 2 f.blocks.length (i.operands.head?.any (·.isValue))
  | .call | .callIndirect => i.validateCall p
  | .ret => i.validateReturn f.returnType
  | .unreachable => .ok ()
  | _ => do
    i.requireValues 2
    i.requireDest

end Instruction

/-- The instructions of a block from a position on: terminators stand last. -/
def Block.validateFrom (p : Program) (f : Function) (block : Nat) :
    Nat → List Instruction → Except ProgramFault Unit
  | _, [] => .ok ()
  | position, i :: rest => do
    require (!i.opcode.isTerminator || rest.isEmpty) (.earlyTerminator f.name block position)
    match i.validate p f with
    | .error fault => .error (.instruction f.name block position fault)
    | .ok () => validateFrom p f block (position + 1) rest

def Block.validate (p : Program) (f : Function) (index : Nat) (b : Block) :
    Except ProgramFault Unit := do
  match b.instructions.getLast? with
  | none => .error (.emptyBlock f.name index)
  | some last =>
    require last.opcode.isTerminator (.noTerminator f.name index)
    Block.validateFrom p f index 0 b.instructions

namespace Function

def validateBlocks (p : Program) (f : Function) : Nat → List Block → Except ProgramFault Unit
  | _, [] => .ok ()
  | index, b :: rest => do
    b.validate p f index
    validateBlocks p f (index + 1) rest

def validate (p : Program) (f : Function) : Except ProgramFault Unit := do
  require (f.numParams ≤ maxParams) (.tooManyParameters f.name f.numParams)
  require (!f.blocks.isEmpty) (.noBlocks f.name)
  f.validateBlocks p 0 f.blocks

end Function

namespace Program

/-- The first name that an earlier one of the list, or one of those seen, repeats. -/
def firstRepeated (seen : List String) : List String → Option String
  | [] => none
  | name :: rest => if seen.contains name then some name else firstRepeated (name :: seen) rest

def validateConstructor (p : Program) (name : String) : Except ProgramFault Unit :=
  match p.function? name with
  | none => .error (.constructorUndefined name)
  | some f => require (f.numParams == 0) (.constructorParameters name)

/-- Accepts the program or names its first fault. -/
def validate (p : Program) : Except ProgramFault Unit := do
  match firstRepeated [] (p.functions.map (·.name)) with
  | some name => .error (.duplicateFunction name)
  | none =>
    p.functions.forM (·.validate p)
    p.constructors.forM p.validateConstructor

end Program

end MutationAnalysis
