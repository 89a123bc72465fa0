/-
The index spaces of a compiled module.

The globals of a module are first the addresses of the functions that it calls and does not define,
then the cells that it calls through, then, in instrumented code, the constant that numbers its
functions.  Instrumented code has the two probes as its first functions.  Types are numbered in the
order in which they are first needed: for the probes, for the functions defined, and for the
indirect calls in their bodies.
-/
import MutationAnalysis.Program.Basic
import MutationAnalysis.SymbolName
import MutationAnalysis.Text.Quoted
import MutationAnalysis.Wasm.Module

namespace MutationAnalysis.Lowering

open Wasm

/-- Why an instruction cannot be compiled. -/
inductive SiteDefect where
  | noCallee
  | undeclared (callee : String)
  | noAddress (callee : String)
  | noCell
  | noCellImport (cell : String)
  | notValue (operand : Operand)
  /-- A branch that does not name its targets; only a program that was never validated has one. -/
  | noTarget
  deriving Repr, DecidableEq

/-- Why a program cannot be compiled. -/
inductive Defect where
  | undeclared (callee : String)
  | site (function : String) (block : Nat) (defect : SiteDefect)
  deriving Repr, DecidableEq

end Lowering

/-- The spelling of an operand in diagnostics. -/
def Operand.diagnostic : Operand → String
  | register r => "Register(Register(" ++ toString r ++ "))"
  | immediate (.int n) => "Immediate(Int(" ++ toString n.toInt ++ "))"
  | immediate (.bool b) => "Immediate(Bool(" ++ (if b then "true" else "false") ++ "))"
  | block index => "BlockIndex(" ++ toString index ++ ")"
  | symbol name => "Symbol(" ++ Text.quoted name ++ ")"

namespace Lowering

open Wasm

def SiteDefect.message : SiteDefect → String
  | noCallee => "call without callee"
  | undeclared callee => "call to undeclared function '" ++ callee ++ "'"
  | noAddress callee => "no GOT entry for '" ++ callee ++ "'"
  | noCell => "indirect call without cell"
  | noCellImport cell => "no cell import for '" ++ cell ++ "'"
  | notValue operand => operand.diagnostic ++ " is not a value"
  | noTarget => "branch without target"

def Defect.message : Defect → String
  | undeclared callee => "call to undeclared function '" ++ callee ++ "'"
  | site f block defect => f ++ " block " ++ toString block ++ ": " ++ defect.message

def funcType (s : Signature) : FuncType := ⟨s.numParams.toNat, s.returnsValue⟩

/-- What the compiled code of a program refers to. -/
structure Layout where
  program : Program
  isInstrumented : Bool
  /-- Functions called and not defined, with the signatures they are called with. -/
  undefined : List (String × Signature)
  cells : List String
  types : List FuncType

/-- The type of the probes. -/
def probeType : FuncType := ⟨1, false⟩

/-- The probe called on entry and the one called before a return. -/
def enterProbe : Nat := 0

def leaveProbe : Nat := 1

/-- The type that an instruction needs. -/
def neededType? (p : Program) (i : Instruction) : Option FuncType :=
  match i.opcode, i.callee with
  | .call, some callee =>
    if (p.function? callee).isSome then none else (p.signature? callee).map funcType
  | .callIndirect, some _ => some ⟨i.callArguments.length, i.dest.isSome⟩
  | _, _ => none

/-- The types of a module, each once, in the order in which they are first needed. -/
def neededTypes (p : Program) (isInstrumented : Bool) : List FuncType :=
  ((if isInstrumented then [probeType] else [])
    ++ p.functions.map (fun f => funcType f.signature)
    ++ p.instructions.filterMap (neededType? p)).eraseDups

namespace Layout

/-- The layout of a program of which every direct callee is declared. -/
def of (p : Program) (isInstrumented : Bool) : Except Defect Layout := do
  let undefined ← p.undefinedSymbols.mapM fun name =>
    match p.signature? name with
    | some s => .ok (name, s)
    | none => .error (.undeclared name)
  return ⟨p, isInstrumented, undefined, p.cells, neededTypes p isInstrumented⟩

/-- The index of a function type. -/
def typeIndex (l : Layout) (t : FuncType) : Nat := l.types.idxOf t

/-- How many probes come before the functions defined. -/
def probes (l : Layout) : Nat := if l.isInstrumented then 2 else 0

/-- The index of the last function defined under a name. -/
def functionIndex? (l : Layout) (name : String) : Option Nat :=
  let fromEnd := l.program.functions.reverse.findIdx? (·.name == name)
  fromEnd.map fun i => l.probes + (l.program.functions.length - 1 - i)

/-- The index of the global of a name: its cell, else its address. -/
def globalIndex? (l : Layout) (name : String) : Option Nat :=
  match l.cells.idxOf? name with
  | some i => some (l.undefined.length + i)
  | none => l.undefined.findIdx? (·.1 == name)

/-- The index of the constant that numbers the functions. -/
def offsetGlobal (l : Layout) : Nat := l.undefined.length + l.cells.length

end Layout

end MutationAnalysis.Lowering
