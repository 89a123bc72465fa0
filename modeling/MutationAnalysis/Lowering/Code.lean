/-
From basic blocks to structured code.

A function becomes a loop around a dispatcher.  The dispatcher is a table branch on a local that
holds the number of the block to run; it stands in as many nested blocks as the function has basic
blocks, and the code of each basic block follows the end of one of them.  Going to another block
sets the local and starts the loop again.  Registers are the first locals, so parameters stay where
they are; the block number is the local after them.
-/
import MutationAnalysis.Lowering.Layout

namespace MutationAnalysis.Lowering

open Wasm

/-- Puts the word of an operand on the stack. -/
def operandOp : Operand → Except SiteDefect Op
  | .register r => .ok (.localGet r.toNat)
  | .immediate v => .ok (.const v.word)
  | other => .error (.notValue other)

def operandOps (operands : List Operand) : Except SiteDefect (List Op) :=
  operands.mapM operandOp

/-- Takes the word on top of the stack into the destination, or drops it. -/
def resultOp (dest : Option Register) : Op :=
  match dest with
  | some r => .localSet r.toNat
  | none => .drop

/-- The operation of a binary opcode. -/
def binaryOp? : Opcode → Option BinaryOp
  | .add => some .add
  | .sub => some .sub
  | .mul => some .mul
  | .div => some .divS
  | .mod => some .remS
  | .eq => some .eq
  | .ne => some .ne
  | .lt => some .ltS
  | .le => some .leS
  | .gt => some .gtS
  | .ge => some .geS
  | .and => some .and
  | .or => some .or
  | .xor => some .xor
  | _ => none

/-- Calls a probe with the number of the function, which is its index plus the module's offset. -/
def probeOps (l : Layout) (index probe : Nat) : List Op :=
  if l.isInstrumented then
    [.const (UInt32.ofNat index), .globalGet l.offsetGlobal, .binary .add, .call probe]
  else []

/-- Goes to a block from inside so many constructs of the loop. -/
def jumpOps (counter : Nat) (target : UInt32) (depth : Nat) : List Op :=
  [.const target, .localSet counter, .br depth]

/-- Where an instruction stands: the function's index, the local that holds the block number, and
how many constructs lie between the block and the loop. -/
structure Site where
  function : Nat
  counter : Nat
  depth : Nat

/-- A direct call: of the function itself if it is defined here, else through its address. -/
def callOps (l : Layout) (i : Instruction) : Except SiteDefect (List Op) := do
  match i.callee with
  | none => .error .noCallee
  | some callee =>
    let arguments ← operandOps i.callArguments
    match l.program.signature? callee with
    | none => .error (.undeclared callee)
    | some signature =>
      let call ← match l.functionIndex? callee with
        | some index => .ok [.call index]
        | none =>
          match l.globalIndex? callee with
          | some address =>
            .ok [.globalGet address, .callIndirect (l.typeIndex (funcType signature))]
          | none => .error (.noAddress callee)
      return arguments ++ call ++ if signature.returnsValue then [resultOp i.dest] else []

/-- A call through the cell that the instruction names. -/
def callCellOps (l : Layout) (i : Instruction) : Except SiteDefect (List Op) := do
  match i.callee with
  | none => .error .noCell
  | some cell =>
    let arguments ← operandOps i.callArguments
    match l.globalIndex? cell with
    | none => .error (.noCellImport cell)
    | some index =>
      let type := l.typeIndex ⟨i.callArguments.length, i.dest.isSome⟩
      return arguments ++ [.globalGet index, .callIndirect type]
        ++ i.dest.toList.map fun r => .localSet r.toNat

/-- Branches to one of two blocks on the first operand. -/
def branchIfCode (s : Site) (i : Instruction) : Except SiteDefect Code := do
  match i.operands with
  | [] => .error .noTarget
  | condition :: _ =>
    let condition ← operandOp condition
    match i.successors with
    | yes :: no :: _ =>
      return .op condition (.ifElse (.ofOps (jumpOps s.counter yes (s.depth + 1)))
        (.ofOps (jumpOps s.counter no (s.depth + 1))) .done)
    | _ => .error .noTarget

/-- The code of an instruction. -/
def instructionCode (l : Layout) (s : Site) (i : Instruction) : Except SiteDefect Code := do
  match i.opcode with
  | .neg =>
    let operands ← operandOps i.operands
    return .ofOps (.const 0 :: operands ++ [.binary .sub, resultOp i.dest])
  | .not =>
    let operands ← operandOps i.operands
    return .ofOps (operands ++ [.eqz, resultOp i.dest])
  | .copy | .loadConst =>
    let operands ← operandOps i.operands
    return .ofOps (operands ++ [resultOp i.dest])
  | .load =>
    let operands ← operandOps i.operands
    return .ofOps (operands ++ [.load, resultOp i.dest])
  | .store =>
    let operands ← operandOps i.operands
    return .ofOps (operands ++ [.store])
  | .branch =>
    match i.successors with
    | target :: _ => return .ofOps (jumpOps s.counter target s.depth)
    | [] => .error .noTarget
  | .branchIf => branchIfCode s i
  | .call => return .ofOps (← callOps l i)
  | .callIndirect => return .ofOps (← callCellOps l i)
  | .ret =>
    let operands ← operandOps i.operands
    return .ofOps (operands ++ probeOps l s.function leaveProbe ++ [.ret])
  | .unreachable => return .ofOps [.unreachable]
  | opcode =>
    let operands ← operandOps i.operands
    return .ofOps (operands ++ (binaryOp? opcode).toList.map .binary ++ [resultOp i.dest])

/-- The code of instructions one after the other. -/
def instructionsCode (l : Layout) (s : Site) : List Instruction → Except SiteDefect Code
  | [] => .ok .done
  | i :: rest => do
    let code ← instructionCode l s i
    let restCode ← instructionsCode l s rest
    return code ++ restCode

/-- Puts the blocks from the given index on around the code of those before them. -/
def blocksCode (l : Layout) (function : Nat) (f : Function) (counter : Nat) (inner : Code) :
    Nat → List Block → Except Defect Code
  | _, [] => .ok inner
  | index, b :: rest =>
    let site : Site := ⟨function, counter, rest.length⟩
    match instructionsCode l site b.instructions with
    | .error defect => .error (.site f.name index defect)
    | .ok code => blocksCode l function f counter (.block inner code) (index + 1) rest

/-- The number of the last block.  Where there are no blocks it is the greatest number of 32 bits,
which no construct is deep enough for, so code without blocks is never valid. -/
def lastBlock (blocks : Nat) : Nat :=
  if blocks = 0 then UInt32.size - 1 else blocks - 1

/-- The table branch on the block number; numbers past the last block go to the last. -/
def dispatcher (counter blocks : Nat) : Code :=
  .ofOps [.localGet counter, .brTable (List.range blocks) (lastBlock blocks)]

/-- The local that holds the block number. -/
def counterLocal (f : Function) : Nat := f.registerCount.toUInt32.toNat

/-- How many locals a function has besides its parameters: its other registers and the block
number, counted in 32 bits. -/
def extraLocals (f : Function) : Nat :=
  ((f.registerCount - f.numParams).toUInt32 + 1).toNat

/-- The body of the function of an index. -/
def functionBody (l : Layout) (index : Nat) (f : Function) : Except Defect Body := do
  let counter := counterLocal f
  let inner ← blocksCode l index f counter (dispatcher counter f.blocks.length) 0 f.blocks
  let code := Code.ofOps (probeOps l index enterProbe)
    ++ Code.loop inner (.op .unreachable .done)
  return ⟨l.typeIndex (funcType f.signature), extraLocals f, code⟩

end MutationAnalysis.Lowering
