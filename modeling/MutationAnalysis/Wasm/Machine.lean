/-
Running code.

The machine holds the frame of the function that runs and those of its callers, the memory,
and the state of the host.  A frame knows the code that is left, its operand stack, its
locals, and for each construct around the code what a branch to it continues with.  `step`
does one instruction; `run` repeats it for at most the given number of steps and says how the
run ended and how many steps were left.

Functions are reached through references: those of the host, whose behaviour is a parameter, and
those that an instance of a module defines.  Addresses are indices into a table of references; a
global is a constant or one of the cells, which code can read and only the host sets.
-/
import MutationAnalysis.Wasm.Memory
import MutationAnalysis.Wasm.Module

namespace MutationAnalysis.Wasm

/-- Why code stops where it stands. -/
inductive Trap where
  | integerDivisionByZero
  | integerOverflow
  | unreachable
  | memoryOutOfBounds
  | stackOverflow
  | tableOutOfBounds
  | indirectCallToNull
  | badSignature
  /-- The deadline has passed. -/
  | interrupt
  deriving Repr, DecidableEq

def Trap.name : Trap → String
  | integerDivisionByZero => "IntegerDivisionByZero"
  | integerOverflow => "IntegerOverflow"
  | unreachable => "UnreachableCodeReached"
  | memoryOutOfBounds => "MemoryOutOfBounds"
  | stackOverflow => "StackOverflow"
  | tableOutOfBounds => "TableOutOfBounds"
  | indirectCallToNull => "IndirectCallToNull"
  | badSignature => "BadSignature"
  | interrupt => "Interrupt"

/-- What a function of the host may do instead of returning. -/
inductive Signal where
  /-- Ends the program with a status, unwinding its code. -/
  | exit (code : Int32)
  /-- Fails with a message. -/
  | failure (text : String)
  /-- Ends the process that runs the program. -/
  | endProcess (code : Int32)
  deriving Repr, DecidableEq

/-- How a call ends. -/
inductive Ending where
  | returned (results : List Word)
  | trapped (trap : Trap)
  | raised (signal : Signal)
  /-- The code asked for an operand, a function or a global that is not
  there; valid code never does. -/
  | stuck
  deriving Repr, DecidableEq

/-- How a function of the host ends. -/
inductive HostAnswer (σ : Type) where
  | returned (results : List Word) (memory : Memory) (state : σ)
  | raised (signal : Signal) (memory : Memory) (state : σ)

/-- The functions of a host, by name, over a state of its own. -/
structure Host (η σ : Type) where
  type : η → FuncType
  call : η → List Word → Memory → σ → HostAnswer σ

/-- A reference to a function. -/
inductive FuncRef (η : Type) where
  | host (name : η)
  | defined (home index : Nat)
  deriving Repr, DecidableEq

/-- What a global stands for. -/
inductive GlobalRef where
  | constant (value : Word)
  | cell (index : Nat)
  deriving Repr, DecidableEq

/-- A module whose imports are bound. -/
structure Instance (η : Type) where
  types : Array FuncType
  functions : Array (FuncRef η)
  globals : Array GlobalRef
  bodies : Array Body

/-- Everything that stays fixed while code runs. -/
structure Linkage (η σ : Type) where
  host : Host η σ
  instances : Array (Instance η)
  table : Array (Option (FuncRef η))
  cells : Array Word
  /-- How many calls may be under way at once. -/
  maxDepth : Nat

/-- What a branch to a construct continues with, and what its end does; both find the operand
stack as it was when the construct was entered. -/
structure Label where
  onBranch : Code
  onEnd : Code
  operands : List Word

structure Frame where
  code : Code
  labels : List Label
  operands : List Word
  locals : Array Word
  /-- The instance that defines the function. -/
  home : Nat
  /-- How many words the function gives back. -/
  results : Nat

structure Machine (σ : Type) where
  frame : Frame
  callers : List Frame
  /-- How many callers there are. -/
  depth : Nat
  memory : Memory
  state : σ

/-- What one step leads to. -/
inductive Transition (σ : Type) where
  | next (m : Machine σ)
  | halt (e : Ending) (memory : Memory) (state : σ)

/-- The word of a truth value. -/
def wordOfBool (b : Bool) : Word := if b then 1 else 0

/-- The result of an operation on two words, or why it has none. -/
def BinaryOp.eval (op : BinaryOp) (a b : Word) : Except Trap Word :=
  match op with
  | add => .ok (a + b)
  | sub => .ok (a - b)
  | mul => .ok (a * b)
  | divS =>
    if b = 0 then .error .integerDivisionByZero
    else if a = 0x80000000 ∧ b = 0xFFFFFFFF then .error .integerOverflow
    else .ok (a.toInt32 / b.toInt32).toUInt32
  | remS =>
    if b = 0 then .error .integerDivisionByZero else .ok (a.toInt32 % b.toInt32).toUInt32
  | eq => .ok (wordOfBool (a == b))
  | ne => .ok (wordOfBool (a != b))
  | ltS => .ok (wordOfBool (decide (a.toInt32 < b.toInt32)))
  | leS => .ok (wordOfBool (decide (a.toInt32 ≤ b.toInt32)))
  | gtS => .ok (wordOfBool (decide (b.toInt32 < a.toInt32)))
  | geS => .ok (wordOfBool (decide (b.toInt32 ≤ a.toInt32)))
  | and => .ok (a &&& b)
  | or => .ok (a ||| b)
  | xor => .ok (a ^^^ b)

namespace Linkage

variable {η σ : Type}

/-- The body that a reference leads to, with its type. -/
def body? (l : Linkage η σ) (home index : Nat) : Option (FuncType × Body) := do
  let instance_ ← l.instances[home]?
  let body ← instance_.bodies[index]?
  let type ← instance_.types[body.type]?
  return (type, body)

/-- The type of the function that a reference leads to. -/
def type? (l : Linkage η σ) : FuncRef η → Option FuncType
  | .host name => some (l.host.type name)
  | .defined home index => (l.body? home index).map (·.1)

/-- The value of a global of an instance. -/
def global? (l : Linkage η σ) (home index : Nat) : Option Word := do
  let instance_ ← l.instances[home]?
  match ← instance_.globals[index]? with
  | .constant value => some value
  | .cell cell => l.cells[cell]?

end Linkage

/-- The frame in which a function starts. -/
def Frame.start (home : Nat) (type : FuncType) (body : Body) (arguments : List Word) : Frame where
  code := body.code
  labels := []
  operands := []
  locals := arguments.toArray ++ Array.replicate body.locals 0
  home := home
  results := type.results

namespace Machine

variable {η σ : Type}

def halt (m : Machine σ) (e : Ending) : Transition σ := .halt e m.memory m.state

/-- Goes on with the given code and operands in the same function. -/
@[inline] def proceed (m : Machine σ) (code : Code) (operands : List Word) : Transition σ :=
  .next { m with frame := { m.frame with code := code, operands := operands } }

/-- Ends the function that runs with the words on top of its stack. -/
def giveBack (m : Machine σ) : Transition σ :=
  let results := m.frame.operands.take m.frame.results
  if results.length < m.frame.results then m.halt .stuck
  else
    match m.callers with
    | [] => m.halt (.returned results)
    | caller :: callers =>
      .next { m with
        frame := { caller with operands := results ++ caller.operands }
        callers := callers
        depth := m.depth - 1 }

/-- Calls a function with arguments; the frame at hand goes on with the given code
and operands once it returns. -/
def enter (l : Linkage η σ) (m : Machine σ) (ref : FuncRef η) (arguments : List Word) (code : Code)
    (operands : List Word) : Transition σ :=
  match ref with
  | .host name =>
    match l.host.call name arguments m.memory m.state with
    | .returned results memory state =>
      .next { m with
        frame := { m.frame with code := code, operands := results.reverse ++ operands }
        memory := memory
        state := state }
    | .raised signal memory state => .halt (.raised signal) memory state
  | .defined home index =>
    match l.body? home index with
    | none => m.halt .stuck
    | some (type, body) =>
      if m.depth < l.maxDepth then
        .next { m with
          frame := .start home type body arguments
          callers := { m.frame with code := code, operands := operands } :: m.callers
          depth := m.depth + 1 }
      else m.halt (.trapped .stackOverflow)

/-- Calls a function with the arguments on top of the stack, the last one topmost. -/
def callWith (l : Linkage η σ) (m : Machine σ) (ref : FuncRef η) (type : FuncType) (code : Code)
    (operands : List Word) : Transition σ :=
  let arguments := operands.take type.params
  if arguments.length < type.params then m.halt .stuck
  else m.enter l ref arguments.reverse code (operands.drop type.params)

/-- Branches to the construct of a depth; past all constructs it ends the function. -/
def branch (m : Machine σ) (depth : Nat) : Transition σ :=
  match m.frame.labels.drop depth with
  | [] => m.giveBack
  | label :: labels =>
    .next { m with
      frame :=
        { m.frame with code := label.onBranch, labels := labels, operands := label.operands } }

/-- Calls the table's function at an address if it has the type. -/
def callAddress (l : Linkage η σ) (m : Machine σ) (type : FuncType) (address : Nat) (code : Code)
    (operands : List Word) : Transition σ :=
  match l.table[address]? with
  | none => m.halt (.trapped .tableOutOfBounds)
  | some none => m.halt (.trapped .indirectCallToNull)
  | some (some ref) =>
    if l.type? ref = some type then m.callWith l ref type code operands
    else m.halt (.trapped .badSignature)

/-- Sets a local and goes on. -/
def setLocal (m : Machine σ) (index : Nat) (value : Word) (code : Code) (operands : List Word) :
    Transition σ :=
  -- taken apart at once, so that the only reference to the locals is the one that is updated
  match m with
  | ⟨⟨_, labels, _, locals, home, results⟩, callers, depth, memory, state⟩ =>
    .next ⟨⟨code, labels, operands, locals.setIfInBounds index value, home, results⟩,
      callers, depth, memory, state⟩

/-- Stores a word and goes on. -/
def store (m : Machine σ) (address : Nat) (value : Word) (code : Code) (operands : List Word) :
    Transition σ :=
  -- taken apart at once, so that the only reference to the memory is the one that is updated
  match m with
  | ⟨⟨_, labels, _, locals, home, results⟩, callers, depth, memory, state⟩ =>
    if address + 4 ≤ memory.size then
      .next ⟨⟨code, labels, operands, locals, home, results⟩, callers, depth,
        memory.putWord address value, state⟩
    else .halt (.trapped .memoryOutOfBounds) memory state

/-- Does a plain instruction, with the code after it. -/
def stepOp (l : Linkage η σ) (m : Machine σ) (o : Op) (rest : Code) : Transition σ :=
  match o, m.frame.operands with
  | .const value, operands => m.proceed rest (value :: operands)
  | .localGet index, operands =>
    match m.frame.locals[index]? with
    | some value => m.proceed rest (value :: operands)
    | none => m.halt .stuck
  | .localSet index, value :: operands => m.setLocal index value rest operands
  | .drop, _ :: operands => m.proceed rest operands
  | .binary op, b :: a :: operands =>
    match op.eval a b with
    | .ok value => m.proceed rest (value :: operands)
    | .error trap => m.halt (.trapped trap)
  | .eqz, a :: operands => m.proceed rest (wordOfBool (a == 0) :: operands)
  | .load, address :: operands =>
    match m.memory.loadWord? address.toNat with
    | some value => m.proceed rest (value :: operands)
    | none => m.halt (.trapped .memoryOutOfBounds)
  | .store, value :: address :: operands => m.store address.toNat value rest operands
  | .globalGet index, operands =>
    match l.global? m.frame.home index with
    | some value => m.proceed rest (value :: operands)
    | none => m.halt .stuck
  | .call function, operands =>
    match l.instances[m.frame.home]?.bind (·.functions[function]?) with
    | none => m.halt .stuck
    | some ref =>
      match l.type? ref with
      | none => m.halt .stuck
      | some type => m.callWith l ref type rest operands
  | .callIndirect type, address :: operands =>
    match l.instances[m.frame.home]?.bind (·.types[type]?) with
    | none => m.halt .stuck
    | some type => m.callAddress l type address.toNat rest operands
  | .ret, _ => m.giveBack
  | .unreachable, _ => m.halt (.trapped .unreachable)
  | .br depth, _ => m.branch depth
  | .brTable depths fallback, index :: operands =>
    let m := { m with frame := { m.frame with operands := operands } }
    m.branch (depths.getD index.toNat fallback)
  | _, [] | .binary _, [_] | .store, [_] => m.halt .stuck

/-- Enters a construct. -/
def enterConstruct (m : Machine σ) (body onBranch onEnd : Code) (operands : List Word) :
    Transition σ :=
  .next { m with
    frame := { m.frame with
      code := body
      labels := ⟨onBranch, onEnd, operands⟩ :: m.frame.labels
      operands := operands } }

/-- Does the next instruction. -/
def step (l : Linkage η σ) (m : Machine σ) : Transition σ :=
  match m.frame.code with
  | .op o rest => m.stepOp l o rest
  | .block body rest => m.enterConstruct body rest rest m.frame.operands
  | .loop body rest => m.enterConstruct body (.loop body rest) rest m.frame.operands
  | .ifElse yes no rest =>
    match m.frame.operands with
    | [] => m.halt .stuck
    | condition :: operands =>
      m.enterConstruct (if condition ≠ 0 then yes else no) rest rest operands
  | .done =>
    match m.frame.labels with
    | [] => m.giveBack
    | label :: labels =>
      .next { m with
        frame :=
          { m.frame with code := label.onEnd, labels := labels, operands := label.operands } }

/-! What a step does, by the instruction. -/

theorem step_localGet (l : Linkage η σ) {index : Nat} {rest : Code} {labels : List Label}
    {operands : List Word} {locals : Array Word} {home results : Nat} {callers : List Frame}
    {depth : Nat} {memory : Memory} {state : σ} (h : index < locals.size) :
    step l ⟨⟨.op (.localGet index) rest, labels, operands, locals, home, results⟩, callers, depth,
        memory, state⟩
      = .next ⟨⟨rest, labels, locals[index] :: operands, locals, home, results⟩, callers, depth,
          memory, state⟩ := by
  have found : locals[index]? = some locals[index] := Array.getElem?_eq_getElem h
  change (match locals[index]? with
    | some value => Transition.next (⟨⟨rest, labels, value :: operands, locals, home, results⟩,
        callers, depth, memory, state⟩ : Machine σ)
    | none => .halt .stuck memory state) = _
  rw [found]

theorem step_binary (l : Linkage η σ) (op : BinaryOp) (a b : Word) (rest : Code)
    (labels : List Label) (operands : List Word) (locals : Array Word) (home results : Nat)
    (callers : List Frame) (depth : Nat) (memory : Memory) (state : σ) :
    step l ⟨⟨.op (.binary op) rest, labels, b :: a :: operands, locals, home, results⟩, callers,
        depth, memory, state⟩
      = match op.eval a b with
        | .ok value => .next ⟨⟨rest, labels, value :: operands, locals, home, results⟩, callers,
            depth, memory, state⟩
        | .error trap => .halt (.trapped trap) memory state := rfl

theorem step_br (l : Linkage η σ) (target : Nat) (rest : Code) (labels : List Label)
    (operands : List Word) (locals : Array Word) (home results : Nat) (callers : List Frame)
    (depth : Nat) (memory : Memory) (state : σ) :
    step l ⟨⟨.op (.br target) rest, labels, operands, locals, home, results⟩, callers, depth,
        memory, state⟩
      = branch ⟨⟨.op (.br target) rest, labels, operands, locals, home, results⟩, callers, depth,
          memory, state⟩ target := rfl

theorem step_brTable (l : Linkage η σ) (targets : List Nat) (fallback : Nat) (index : Word)
    (rest : Code) (labels : List Label) (operands : List Word) (locals : Array Word)
    (home results : Nat) (callers : List Frame) (depth : Nat) (memory : Memory) (state : σ) :
    step l ⟨⟨.op (.brTable targets fallback) rest, labels, index :: operands, locals, home,
        results⟩, callers, depth, memory, state⟩
      = branch ⟨⟨.op (.brTable targets fallback) rest, labels, operands, locals, home, results⟩,
          callers, depth, memory, state⟩ (targets.getD index.toNat fallback) := rfl

end Machine

/-- How a call ended, what it left behind, and how many steps it did not use. -/
structure Run (σ : Type) where
  ending : Ending
  memory : Memory
  state : σ
  stepsLeft : Nat

/-- Runs the machine for at most the given number of steps. -/
def Machine.run {η σ : Type} (l : Linkage η σ) : Nat → Machine σ → Run σ
  | 0, m => ⟨.trapped .interrupt, m.memory, m.state, 0⟩
  | steps + 1, m =>
    match m.step l with
    | .next m => run l steps m
    | .halt e memory state => ⟨e, memory, state, steps⟩

theorem Machine.run_succ {η σ : Type} (l : Linkage η σ) (steps : Nat) (m : Machine σ) :
    Machine.run l (steps + 1) m = match m.step l with
      | .next m => Machine.run l steps m
      | .halt e memory state => ⟨e, memory, state, steps⟩ := rfl

end MutationAnalysis.Wasm
