/-
Structured code of the target machine.

Code is a sequence of plain instructions and of blocks, loops and conditionals that hold code of
their own.  A branch names how many of the constructs around it it leaves: a branch to a block or
conditional continues after it, one to a loop starts it again.  All constructs take nothing off the
operand stack and leave nothing on it.
-/

namespace MutationAnalysis.Wasm

/-- A 32-bit word, the only kind of value. -/
abbrev Word := UInt32

/-- Operations on two words. -/
inductive BinaryOp where
  | add
  | sub
  | mul
  | divS
  | remS
  | eq
  | ne
  | ltS
  | leS
  | gtS
  | geS
  | and
  | or
  | xor
  deriving Repr, DecidableEq

/-- Plain instructions. -/
inductive Op where
  | const (value : Word)
  | localGet (index : Nat)
  | localSet (index : Nat)
  | drop
  | binary (op : BinaryOp)
  | eqz
  | load
  | store
  | globalGet (index : Nat)
  | call (function : Nat)
  /-- A call of the table's function at the index on top of the stack, if it has the type. -/
  | callIndirect (type : Nat)
  | ret
  | unreachable
  | br (depth : Nat)
  | brTable (depths : List Nat) (fallback : Nat)
  deriving Repr, DecidableEq

/-- A sequence of instructions; every node but the last holds the rest of the sequence. -/
inductive Code where
  | done
  | op (o : Op) (rest : Code)
  | block (body rest : Code)
  | loop (body rest : Code)
  | ifElse (yes no rest : Code)
  deriving Repr, DecidableEq

namespace Code

/-- One sequence after another. -/
def append : Code → Code → Code
  | done, k => k
  | op o rest, k => op o (rest.append k)
  | block body rest, k => block body (rest.append k)
  | loop body rest, k => loop body (rest.append k)
  | ifElse yes no rest, k => ifElse yes no (rest.append k)

instance : Append Code := ⟨append⟩

/-- Plain instructions in order. -/
def ofOps : List Op → Code
  | [] => done
  | o :: rest => op o (ofOps rest)

@[simp] theorem done_append (k : Code) : done ++ k = k := rfl

@[simp] theorem op_append (o : Op) (rest k : Code) : op o rest ++ k = op o (rest ++ k) := rfl

theorem append_done (c : Code) : c ++ done = c := by
  show c.append done = c
  induction c <;> simp_all [append]

theorem append_assoc (a b c : Code) : a ++ b ++ c = a ++ (b ++ c) := by
  show (a.append b).append c = a.append (b.append c)
  induction a <;> simp_all [append]

end Code

end MutationAnalysis.Wasm
