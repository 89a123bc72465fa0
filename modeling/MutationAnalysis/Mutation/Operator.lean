/-
Mutation operators.

An operator makes one small edit of an instruction: it replaces the opcode, replaces a constant, or
removes a call that gives nothing back.  `Operator.edit` performs the edit on the instructions of a
block and fails where the operator does not fit.
-/
import MutationAnalysis.Error
import MutationAnalysis.Program.Basic
import MutationAnalysis.SymbolName

namespace MutationAnalysis

inductive Operator where
  | mathAdd
  | mathSub
  | mathMul
  | mathDiv
  | negateCondition
  | conditionalsBoundary
  | removeVoidFunction
  | scalarValue
  deriving Repr, DecidableEq

/-- The position of an instruction in a program: function, block, place in the block. -/
structure Address where
  function : Nat
  block : Nat
  instruction : Nat
  deriving Repr, DecidableEq

def Address.text (a : Address) : String :=
  toString a.function ++ "_" ++ toString a.block ++ "_" ++ toString a.instruction

namespace Operator

def all : List Operator :=
  [mathAdd, mathSub, mathMul, mathDiv, negateCondition, conditionalsBoundary, removeVoidFunction,
   scalarValue]

def id : Operator → String
  | mathAdd => "math_add_mutator"
  | mathSub => "math_sub_mutator"
  | mathMul => "math_mul_mutator"
  | mathDiv => "math_div_mutator"
  | negateCondition => "negate_condition_mutator"
  | conditionalsBoundary => "conditionals_boundary_mutator"
  | removeVoidFunction => "remove_void_function_mutator"
  | scalarValue => "scalar_value_mutator"

def ofId? (s : String) : Option Operator := all.find? (·.id == s)

/-- The name in serialized data. -/
def name : Operator → String
  | mathAdd => "MathAdd"
  | mathSub => "MathSub"
  | mathMul => "MathMul"
  | mathDiv => "MathDiv"
  | negateCondition => "NegateCondition"
  | conditionalsBoundary => "ConditionalsBoundary"
  | removeVoidFunction => "RemoveVoidFunction"
  | scalarValue => "ScalarValue"

/-- The title in diagnostics. -/
def title : Operator → String
  | mathAdd => "Math Add"
  | mathSub => "Math Sub"
  | mathMul => "Math Mul"
  | mathDiv => "Math Div"
  | negateCondition => "Negate Condition"
  | conditionalsBoundary => "Conditionals Boundary"
  | removeVoidFunction => "Remove Void Call"
  | scalarValue => "Scalar Value"

/-- The opcode that an operator puts in the place of another. -/
def replacement : Operator → Opcode → Option Opcode
  | mathAdd, .add => some .sub
  | mathSub, .sub => some .add
  | mathMul, .mul => some .div
  | mathDiv, .div => some .mul
  | negateCondition, .eq => some .ne
  | negateCondition, .ne => some .eq
  | negateCondition, .lt => some .ge
  | negateCondition, .le => some .gt
  | negateCondition, .gt => some .le
  | negateCondition, .ge => some .lt
  | conditionalsBoundary, .lt => some .le
  | conditionalsBoundary, .le => some .lt
  | conditionalsBoundary, .gt => some .ge
  | conditionalsBoundary, .ge => some .gt
  | _, _ => none

/-- The constant that takes the place of another: always a different one. -/
def mutatedValue : Value → Value
  | .int n => if n = 0 then .int 1 else .int 0
  | .bool b => .bool !b

/-- A call of a function outside the engine that gives nothing back. -/
def isVoidCall (p : Program) (i : Instruction) : Bool :=
  i.opcode == .call && i.dest.isNone &&
    match i.callee with
    | some callee =>
      !SymbolName.isInternal callee && (p.signature? callee).any fun s => !s.returnsValue
    | none => false

/-- Whether the operator makes a mutant of an instruction of the program. -/
def applies (o : Operator) (p : Program) (i : Instruction) : Bool :=
  match o with
  | removeVoidFunction => isVoidCall p i
  | scalarValue =>
    i.opcode == .loadConst &&
      match i.operands with
      | .immediate _ :: _ => true
      | _ => false
  | _ => (o.replacement i.opcode).isSome

/-- What the operator does to an instruction, in words. -/
def diagnostics (o : Operator) (i : Instruction) : String :=
  match o with
  | removeVoidFunction => o.title ++ ": removed " ++ i.callee.getD ""
  | scalarValue =>
    match i.operands with
    | .immediate v :: _ =>
      o.title ++ ": replaced " ++ v.text ++ " with " ++ (mutatedValue v).text
    | _ => o.title
  | _ =>
    match o.replacement i.opcode with
    | some opcode => o.title ++ ": replaced " ++ i.opcode.symbol ++ " with " ++ opcode.symbol
    | none => o.title

/-- Why an edit cannot be made. -/
inductive Fault where
  | noBlock (function : String) (address : Address)
  | noInstruction (address : Address)
  | notCall (operator : Operator) (address : Address)
  | notConstant (operator : Operator) (address : Address)
  | wrongOpcode (operator : Operator) (opcode : Opcode) (address : Address)
  deriving Repr, DecidableEq

def Fault.message : Fault → String
  | noBlock f a => f ++ ": no block at " ++ a.text
  | noInstruction a => "no instruction at " ++ a.text
  | notCall o a => o.id ++ " expects a call at " ++ a.text
  | notConstant o a => o.id ++ " expects a constant at " ++ a.text
  | wrongOpcode o opcode a => o.id ++ " cannot rewrite " ++ opcode.name ++ " at " ++ a.text

def Fault.toError (f : Fault) : Error := ⟨.mutation, f.message⟩

/-- What takes the place of an instruction: another one, or nothing. -/
def edit (o : Operator) (address : Address) (i : Instruction) :
    Except Fault (Option Instruction) :=
  match o with
  | removeVoidFunction =>
    if i.opcode = .call then .ok none else .error (.notCall o address)
  | scalarValue =>
    match i.operands with
    | .immediate v :: rest => .ok (some { i with operands := .immediate (mutatedValue v) :: rest })
    | _ => .error (.notConstant o address)
  | _ =>
    match o.replacement i.opcode with
    | some opcode => .ok (some { i with opcode := opcode })
    | none => .error (.wrongOpcode o i.opcode address)

/-- The function with the edit made at an address, whose function index is left aside. -/
def apply (o : Operator) (address : Address) (f : Function) : Except Fault Function := do
  match f.blocks[address.block]? with
  | none => .error (.noBlock f.name address)
  | some block =>
    match block.instructions[address.instruction]? with
    | none => .error (.noInstruction address)
    | some i =>
      let edited ← o.edit address i
      let instructions := match edited with
        | some j => block.instructions.set address.instruction j
        | none => block.instructions.eraseIdx address.instruction
      return { f with blocks := f.blocks.set address.block ⟨instructions⟩ }

end Operator

end MutationAnalysis
