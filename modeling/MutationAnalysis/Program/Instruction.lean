/-
Instructions of the intermediate representation.

An instruction has an opcode, an optional destination register and operands.  Registers hold 32-bit
words; the parameters of a function are its first registers.  Control leaves a basic block only
through its last instruction, whose operands name the blocks it may go to.
-/

namespace MutationAnalysis

/-- The number of a register. -/
abbrev Register := UInt8

/-- A constant. -/
inductive Value where
  | int (n : Int32)
  | bool (b : Bool)
  deriving Repr, DecidableEq

namespace Value

/-- The number that a register holds for the value. -/
def toInt32 : Value → Int32
  | int n => n
  | bool b => if b then 1 else 0

/-- The 32-bit word of the value. -/
def word (v : Value) : UInt32 := v.toInt32.toUInt32

def isTrue : Value → Bool
  | int n => n ≠ 0
  | bool b => b

def text : Value → String
  | int n => toString n.toInt
  | bool b => if b then "true" else "false"

end Value

inductive Opcode where
  | add
  | sub
  | mul
  | div
  | mod
  | neg
  | eq
  | ne
  | lt
  | le
  | gt
  | ge
  | and
  | or
  | xor
  | not
  | copy
  | loadConst
  | load
  | store
  | branch
  | branchIf
  | call
  | callIndirect
  | ret
  | unreachable
  deriving Repr, DecidableEq

namespace Opcode

/-- Every opcode in order of declaration, which is also its number in the binary encoding. -/
def all : List Opcode :=
  [add, sub, mul, div, mod, neg, eq, ne, lt, le, gt, ge, and, or, xor, not, copy, loadConst, load,
   store, branch, branchIf, call, callIndirect, ret, unreachable]

def name : Opcode → String
  | add => "Add"
  | sub => "Sub"
  | mul => "Mul"
  | div => "Div"
  | mod => "Mod"
  | neg => "Neg"
  | eq => "Eq"
  | ne => "Ne"
  | lt => "Lt"
  | le => "Le"
  | gt => "Gt"
  | ge => "Ge"
  | and => "And"
  | or => "Or"
  | xor => "Xor"
  | not => "Not"
  | copy => "Copy"
  | loadConst => "LoadConst"
  | load => "Load"
  | store => "Store"
  | branch => "Branch"
  | branchIf => "BranchIf"
  | call => "Call"
  | callIndirect => "CallIndirect"
  | ret => "Return"
  | unreachable => "Unreachable"

/-- The spelling in diagnostics of mutations. -/
def symbol : Opcode → String
  | add => "+"
  | sub => "-"
  | mul => "*"
  | div => "/"
  | mod => "%"
  | neg => "-"
  | eq => "=="
  | ne => "!="
  | lt => "<"
  | le => "<="
  | gt => ">"
  | ge => ">="
  | and => "&"
  | or => "|"
  | xor => "^"
  | not => "!"
  | copy => "="
  | loadConst => "const"
  | load => "load"
  | store => "store"
  | branch => "br"
  | branchIf => "br_if"
  | call => "call"
  | callIndirect => "call_indirect"
  | ret => "return"
  | unreachable => "unreachable"

/-- Ends a basic block. -/
def isTerminator : Opcode → Bool
  | branch | branchIf | ret | unreachable => true
  | _ => false

def isCall : Opcode → Bool
  | call | callIndirect => true
  | _ => false

/-- Computes one word from two. -/
def isBinary : Opcode → Bool
  | add | sub | mul | div | mod | eq | ne | lt | le | gt | ge | and | or | xor => true
  | _ => false

end Opcode

inductive Operand where
  | register (r : Register)
  | immediate (v : Value)
  | block (index : UInt32)
  | symbol (name : String)
  deriving Repr, DecidableEq

/-- Whether the operand stands for a word. -/
def Operand.isValue : Operand → Bool
  | register _ | immediate _ => true
  | block _ | symbol _ => false

/-- A place in a source file. -/
structure Location where
  file : String
  line : UInt32
  column : UInt32
  deriving Repr, DecidableEq

def Location.text (l : Location) : String :=
  l.file ++ ":" ++ toString l.line ++ ":" ++ toString l.column

structure Instruction where
  opcode : Opcode
  dest : Option Register
  operands : List Operand
  location : Option Location
  deriving Repr, DecidableEq

namespace Instruction

/-- The symbol that a call names. -/
def callee (i : Instruction) : Option String :=
  match i.opcode.isCall, i.operands with
  | true, .symbol name :: _ => some name
  | _, _ => none

/-- The operands of a call after its first. -/
def callArguments (i : Instruction) : List Operand :=
  if i.opcode.isCall then i.operands.tail else []

/-- The blocks that the operands name. -/
def successors (i : Instruction) : List UInt32 :=
  i.operands.filterMap fun
    | .block index => some index
    | _ => none

/-- The registers read or written, the destination first. -/
def registers (i : Instruction) : List Register :=
  i.dest.toList ++ i.operands.filterMap fun
    | .register r => some r
    | _ => none

/-- A call through the address that a cell holds. -/
def throughCell (cell : String) (arguments : List Register) (dest : Option Register) :
    Instruction :=
  ⟨.callIndirect, dest, .symbol cell :: arguments.map .register, none⟩

/-- A return of a register's word, or of nothing. -/
def returning (result : Option Register) : Instruction :=
  ⟨.ret, none, result.toList.map .register, none⟩

end Instruction

end MutationAnalysis
