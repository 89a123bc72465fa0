/-
Running programs block by block.

The interpreter runs the programs of an image on the intermediate representation itself.  An
activation is a function that runs, with its registers and what is left of the block that it is in;
callers wait with the register that is to take the result.  Functions of the same program are called
by name.  What a program calls and does not define, and what it calls through a cell, has an
address; the environment says which, and what stands there: a function of the host, whose behaviour
is a parameter, or a function of one of the programs.

How registers are kept is a parameter too.  `RegisterFile.plain` is the meaning of the
language: each register holds a word, which is zero at the start but for the parameters, and
control goes to the block that is named.
-/
import MutationAnalysis.Lowering.Layout
import MutationAnalysis.Proofs.Interpreter.Arithmetic
import MutationAnalysis.Proofs.Wasm.Execution
import Mathlib.Logic.Function.Basic

namespace MutationAnalysis

open Wasm

namespace Interpreter

/-- How a function that runs keeps its registers and finds the block to run. -/
structure RegisterFile (ρ : Type) where
  /-- The registers when a function is called with arguments. -/
  start : Function → List Word → ρ
  read : ρ → Register → Option Word
  write : ρ → Register → Word → ρ
  /-- The block that runs first. -/
  first : Function → ρ → Option Nat
  /-- The block that runs when control goes to one, and the registers then. -/
  goTo : Function → ρ → UInt32 → Option (Nat × ρ)

/-- Registers start at zero with the parameters first, and control goes where it is said to. -/
def RegisterFile.plain : RegisterFile (Register → Word) where
  start _ arguments := fun r => arguments.getD r.toNat 0
  read registers r := some (registers r)
  write registers r w := Function.update registers r w
  first _ _ := some 0
  goTo _ registers target := some (target.toNat, registers)

/-- The probes of an instrumented program: functions of the host, which are given
the number of the function. -/
structure Probes (η : Type) where
  enter : η
  leave : η
  /-- The number of the first function. -/
  offset : Word

/-- What surrounds the programs of an image. -/
structure Environment (η σ : Type) where
  host : Host η σ
  programs : List Program
  /-- Functions by address. -/
  table : Array (Option (FuncRef η))
  /-- The address of a function that a program calls and does not define. -/
  address : Nat → String → Word
  /-- The address in a cell that a program calls through. -/
  cell : Nat → String → Word
  probes : Nat → Option (Probes η)
  /-- How many calls may be under way at once. -/
  maxDepth : Nat

/-- A function that runs. -/
structure Activation (ρ : Type) where
  /-- The program that defines it. -/
  home : Nat
  index : Nat
  function : Function
  registers : ρ
  /-- What is left of the block. -/
  rest : List Instruction

structure State (ρ σ : Type) where
  active : Activation ρ
  /-- Callers, the last one first, with the registers that take their results. -/
  callers : List (Activation ρ × Option Register)
  memory : Memory
  state : σ

/-- What one step leads to. -/
abbrev Next (ρ σ : Type) := State ρ σ ⊕ Halt σ

variable {η σ ρ : Type}

namespace RegisterFile

/-- The word of an operand. -/
def value? (file : RegisterFile ρ) (registers : ρ) : Operand → Option Word
  | .register r => file.read registers r
  | .immediate v => some v.word
  | .block _ | .symbol _ => none

def values? (file : RegisterFile ρ) (registers : ρ) (operands : List Operand) :
    Option (List Word) :=
  operands.mapM (file.value? registers)

theorem values?_cons (file : RegisterFile ρ) (registers : ρ) (a : Operand)
    (operands : List Operand) :
    file.values? registers (a :: operands)
      = (file.value? registers a).bind fun w =>
          (file.values? registers operands).map (w :: ·) := by
  rw [RegisterFile.values?, List.mapM_cons]
  cases file.value? registers a with
  | none => rfl
  | some w =>
    show (List.mapM (file.value? registers) operands).bind _ = _
    rw [← RegisterFile.values?]
    cases file.values? registers operands <;> rfl

theorem values?_length {file : RegisterFile ρ} {registers : ρ}
    {operands : List Operand} {words : List Word}
    (h : file.values? registers operands = some words) : words.length = operands.length := by
  induction operands generalizing words with
  | nil =>
    obtain rfl : [] = words := Option.some.inj h
    rfl
  | cons a operands ih =>
    rw [values?_cons] at h
    obtain ⟨w, -, h⟩ := Option.bind_eq_some_iff.mp h
    obtain ⟨ws, hws, rfl⟩ := Option.map_eq_some_iff.mp h
    rw [List.length_cons, List.length_cons, ih hws]

theorem values?_registers {file : RegisterFile ρ} {registers : ρ} {word : Register → Word}
    {rs : List Register} (h : ∀ r ∈ rs, file.read registers r = some (word r)) :
    file.values? registers (rs.map .register) = some (rs.map word) := by
  induction rs with
  | nil => rfl
  | cons r rs ih =>
    rw [List.forall_mem_cons] at h
    rw [List.map_cons, values?_cons, ih h.2, value?, h.1]
    rfl

/-- Puts a result, if there is one, into the destination, if there is one. -/
def assign (file : RegisterFile ρ) (registers : ρ) (dest : Option Register)
    (result : Option Word) : ρ :=
  match dest, result with
  | some r, some w => file.write registers r w
  | _, _ => registers

end RegisterFile

namespace State

def halt (s : State ρ σ) (e : Ending) : Next ρ σ := .inr (e, s.memory, s.state)

/-- Goes on with the given registers and what is left of the block. -/
def proceed (s : State ρ σ) (registers : ρ) (rest : List Instruction) : Next ρ σ :=
  .inl { s with active := { s.active with registers, rest } }

/-- A function at the start of a block, if there is the block. -/
def atBlock (home index : Nat) (f : Function) (registers : ρ)
    (callers : List (Activation ρ × Option Register)) (memory : Memory) (state : σ) :
    Option Block → Next ρ σ
  | none => .inr (.stuck, memory, state)
  | some b => .inl ⟨⟨home, index, f, registers, b.instructions⟩, callers, memory, state⟩

/-- Goes to a block. -/
def goTo (s : State ρ σ) (file : RegisterFile ρ) (target : UInt32) : Next ρ σ :=
  let f := s.active.function
  match file.goTo f s.active.registers target with
  | none => s.halt .stuck
  | some (k, registers) =>
    atBlock s.active.home s.active.index f registers s.callers s.memory s.state f.blocks[k]?

/-- Goes on with the words of operands. -/
def withValues (s : State ρ σ) (file : RegisterFile ρ) (operands : List Operand)
    (act : List Word → Next ρ σ) : Next ρ σ :=
  match file.values? s.active.registers operands with
  | none => s.halt .stuck
  | some words => act words

end State

namespace Environment

/-- The function of a program at an index. -/
def function? (env : Environment η σ) (home index : Nat) : Option Function := do
  let p ← env.programs[home]?
  p.functions[index]?

def type? (env : Environment η σ) : FuncRef η → Option FuncType
  | .host name => some (env.host.type name)
  | .defined home index =>
    (env.function? home index).map fun f => Lowering.funcType f.signature

/-- Tells a probe, if there are probes, the number of a function. -/
def runProbe (env : Environment η σ) (which : Probes η → η) (home index : Nat) (memory : Memory)
    (state : σ) : (Memory × σ) ⊕ Halt σ :=
  match env.probes home with
  | none => .inl (memory, state)
  | some probes =>
    match env.host.call (which probes) [UInt32.ofNat index + probes.offset] memory state with
    | .returned _ memory state => .inl (memory, state)
    | .raised signal memory state => .inr (.raised signal, memory, state)

/-- Starts a function in its first block. -/
def start (env : Environment η σ) (file : RegisterFile ρ) (home index : Nat) (f : Function)
    (arguments : List Word) (callers : List (Activation ρ × Option Register)) (memory : Memory)
    (state : σ) : Next ρ σ :=
  match env.runProbe Probes.enter home index memory state with
  | .inr halt => .inr halt
  | .inl (memory, state) =>
    let registers := file.start f arguments
    State.atBlock home index f registers callers memory state
      ((file.first f registers).bind (f.blocks[·]?))

/-- Calls the function of a reference; the caller goes on with what is left once it returns. -/
def call (env : Environment η σ) (file : RegisterFile ρ) (s : State ρ σ) (ref : FuncRef η)
    (arguments : List Word) (dest : Option Register) (rest : List Instruction) : Next ρ σ :=
  match ref with
  | .host name =>
    match env.host.call name arguments s.memory s.state with
    | .raised signal memory state => .inr (.raised signal, memory, state)
    | .returned results memory state =>
      let registers := file.assign s.active.registers dest results.head?
      .inl ⟨{ s.active with registers, rest }, s.callers, memory, state⟩
  | .defined home index =>
    match env.function? home index with
    | none => s.halt .stuck
    | some f =>
      if s.callers.length < env.maxDepth then
        env.start file home index f arguments (({ s.active with rest }, dest) :: s.callers) s.memory
          s.state
      else s.halt (.trapped .stackOverflow)

/-- Calls what stands at an address if it has the type. -/
def callAddress (env : Environment η σ) (file : RegisterFile ρ) (s : State ρ σ) (type : FuncType)
    (address : Word) (arguments : List Word) (dest : Option Register) (rest : List Instruction) :
    Next ρ σ :=
  match env.table[address.toNat]? with
  | none => s.halt (.trapped .tableOutOfBounds)
  | some none => s.halt (.trapped .indirectCallToNull)
  | some (some ref) =>
    if env.type? ref = some type then env.call file s ref arguments dest rest
    else s.halt (.trapped .badSignature)

/-- Calls a function by name: of the same program if it is defined there, else at its address. -/
def callName (env : Environment η σ) (file : RegisterFile ρ) (s : State ρ σ) (name : String)
    (arguments : List Word) (dest : Option Register) (rest : List Instruction) : Next ρ σ :=
  match env.programs[s.active.home]? with
  | none => s.halt .stuck
  | some p =>
    match p.functionIndex? name, p.signature? name with
    | some index, _ => env.call file s (.defined s.active.home index) arguments dest rest
    | none, some signature =>
      env.callAddress file s (Lowering.funcType signature) (env.address s.active.home name)
        arguments dest rest
    | none, none => s.halt .stuck

/-- Ends the function that runs and gives the results to its caller. -/
def giveBack (env : Environment η σ) (file : RegisterFile ρ) (s : State ρ σ)
    (results : List Word) : Next ρ σ :=
  match env.runProbe Probes.leave s.active.home s.active.index s.memory s.state with
  | .inr halt => .inr halt
  | .inl (memory, state) =>
    match s.callers with
    | [] => .inr (.returned results, memory, state)
    | (caller, dest) :: callers =>
      let registers := file.assign caller.registers dest results.head?
      .inl ⟨{ caller with registers }, callers, memory, state⟩

/-- Does an instruction that computes a word. -/
def computeStep (file : RegisterFile ρ) (s : State ρ σ) (i : Instruction)
    (rest : List Instruction) (operands : List Word) : Next ρ σ :=
  match compute i.opcode operands with
  | none => s.halt .stuck
  | some (.error trap) => s.halt (.trapped trap)
  | some (.ok w) => s.proceed (file.assign s.active.registers i.dest (some w)) rest

def loadStep (file : RegisterFile ρ) (s : State ρ σ) (i : Instruction) (rest : List Instruction) :
    List Word → Next ρ σ
  | [address] =>
    match wordAt? s.memory address.toNat with
    | none => s.halt (.trapped .memoryOutOfBounds)
    | some w => s.proceed (file.assign s.active.registers i.dest (some w)) rest
  | _ => s.halt .stuck

def storeStep (s : State ρ σ) (rest : List Instruction) : List Word → Next ρ σ
  | [address, w] =>
    match putWordAt? s.memory address.toNat w with
    | none => s.halt (.trapped .memoryOutOfBounds)
    | some memory => .inl { s with active := { s.active with rest }, memory }
  | _ => s.halt .stuck

/-- Branches on the first operand: to the first of two blocks exactly if it is not zero. -/
def branchIfStep (file : RegisterFile ρ) (s : State ρ σ) (i : Instruction) : Next ρ σ :=
  match i.operands, i.successors with
  | condition :: _, [yes, no] =>
    match file.value? s.active.registers condition with
    | none => s.halt .stuck
    | some w => s.goTo file (if signed w ≠ 0 then yes else no)
  | _, _ => s.halt .stuck

/-- Does an instruction. -/
def instructionStep (env : Environment η σ) (file : RegisterFile ρ) (s : State ρ σ)
    (i : Instruction) (rest : List Instruction) : Next ρ σ :=
  match i.opcode with
  | .load => s.withValues file i.operands (loadStep file s i rest)
  | .store => s.withValues file i.operands (storeStep s rest)
  | .branch =>
    match i.successors with
    | [target] => s.goTo file target
    | _ => s.halt .stuck
  | .branchIf => branchIfStep file s i
  | .call =>
    match i.callee with
    | none => s.halt .stuck
    | some name =>
      s.withValues file i.callArguments fun arguments =>
        env.callName file s name arguments i.dest rest
  | .callIndirect =>
    match i.callee with
    | none => s.halt .stuck
    | some cell =>
      s.withValues file i.callArguments fun arguments =>
        env.callAddress file s ⟨arguments.length, i.dest.isSome⟩ (env.cell s.active.home cell)
          arguments i.dest rest
  | .ret => s.withValues file i.operands (env.giveBack file s)
  | .unreachable => s.halt (.trapped .unreachable)
  | _ => s.withValues file i.operands (computeStep file s i rest)

theorem instructionStep_compute (env : Environment η σ) (file : RegisterFile ρ) (s : State ρ σ)
    {i : Instruction} (rest : List Instruction)
    (h : i.opcode.isBinary = true ∨ i.opcode = .neg ∨ i.opcode = .not ∨ i.opcode = .copy ∨
      i.opcode = .loadConst) :
    env.instructionStep file s i rest
      = s.withValues file i.operands (computeStep file s i rest) := by
  obtain ⟨opcode, dest, operands, location⟩ := i
  cases opcode <;> first | rfl | simp [Opcode.isBinary] at h

/-- Does the next instruction. -/
def step (env : Environment η σ) (file : RegisterFile ρ) (s : State ρ σ) : Next ρ σ :=
  match s.active.rest with
  | [] => s.halt .stuck
  | i :: rest => env.instructionStep file s i rest

/-- What comes next ends with a result. -/
def EndsFrom (env : Environment η σ) (file : RegisterFile ρ) : Next ρ σ → Halt σ → Prop
  | .inl s, r => ∃ n, Ends (env.step file) n s r
  | .inr halt, r => halt = r

/-- A call from outside ends with a result. -/
def Finishes (env : Environment η σ) (file : RegisterFile ρ) (ref : FuncRef η)
    (arguments : List Word) (memory : Memory) (state : σ) (r : Halt σ) : Prop :=
  match ref with
  | .host name =>
    match env.host.call name arguments memory state with
    | .returned results memory state => r = (.returned results, memory, state)
    | .raised signal memory state => r = (.raised signal, memory, state)
  | .defined home index =>
    match env.function? home index with
    | none => r = (.stuck, memory, state)
    | some f =>
      if 0 < env.maxDepth then
        env.EndsFrom file (env.start file home index f arguments [] memory state) r
      else r = (.trapped .stackOverflow, memory, state)

end Environment

end Interpreter

end MutationAnalysis
