/-
What a step of the machine can do.

A step stops where it stands, goes on in the frame on top, asks a function of the host, puts
the frame of a function on top, or takes the frame on top away (`Machine.Effect`).  So only
two things change what code shares with its host: a word that is stored, and a function of
the host that code can get at (`Linkage.Offers`).  What steps keep is read off these few
effects, not off the instructions.

* `Frame.GoesOn`: where the code of a frame may go on;
* `Machine.effect_step`: every step has such an effect.
-/
import MutationAnalysis.Proofs.Wasm.Execution

namespace MutationAnalysis.Wasm

variable {η σ : Type} {l : Linkage η σ} {m : Machine σ}

/-- Code gets at a function of the host: it has an address, or a module imports it. -/
inductive Linkage.Offers (l : Linkage η σ) (name : η) : Prop
  | table {address : Nat} (h : l.table[address]? = some (some (.host name)))
  | import {home index : Nat} {inst : Instance η} (hinst : l.instances[home]? = some inst)
      (h : inst.functions[index]? = some (.host name))

/-- Where the code of a frame may go on, and within which constructs. -/
inductive Frame.GoesOn (f : Frame) : Code → List Label → Prop
  | rest {o : Op} {rest : Code} (h : f.code = .op o rest) : f.GoesOn rest f.labels
  | block {body rest : Code} (h : f.code = .block body rest) :
      f.GoesOn body (⟨rest, rest, f.operands⟩ :: f.labels)
  | loop {body rest : Code} (h : f.code = .loop body rest) :
      f.GoesOn body (⟨.loop body rest, rest, f.operands⟩ :: f.labels)
  | ifElse {yes no rest code : Code} {operands : List Word} (h : f.code = .ifElse yes no rest)
      (hcode : code = yes ∨ code = no) : f.GoesOn code (⟨rest, rest, operands⟩ :: f.labels)
  | branch {depth : Nat} {label : Label} {labels : List Label}
      (h : f.labels.drop depth = label :: labels) : f.GoesOn label.onBranch labels
  | done {label : Label} {labels : List Label} (h : f.labels = label :: labels) :
      f.GoesOn label.onEnd labels

/-- An instruction that calls a function. -/
def Op.isCall : Op → Bool
  | .call _ | .callIndirect _ => true
  | _ => false

namespace Machine

/-- What a machine does in one step, whatever the instruction. -/
inductive Effect (l : Linkage η σ) (m : Machine σ) : Transition σ → Prop
  | stop {e : Ending} (he : ∀ signal, e ≠ .raised signal) : Effect l m (.halt e m.memory m.state)
  | goOn {frame : Frame} (hhome : frame.home = m.frame.home)
      (hgoes : m.frame.GoesOn frame.code frame.labels) : Effect l m (.next { m with frame })
  | store {frame : Frame} {address : Nat} {value : Word} (hhome : frame.home = m.frame.home)
      (hgoes : m.frame.GoesOn frame.code frame.labels) (hroom : address + 4 ≤ m.memory.size) :
      Effect l m (.next { m with frame, memory := m.memory.putWord address value })
  | answer {o : Op} {rest : Code} {name : η} {arguments results operands : List Word}
      {memory : Memory} {state : σ} (hcode : m.frame.code = .op o rest) (ho : o.isCall = true)
      (hoffers : l.Offers name)
      (hanswer : l.host.call name arguments m.memory m.state = .returned results memory state) :
      Effect l m (.next { m with frame := { m.frame with code := rest, operands }, memory, state })
  | raise {o : Op} {rest : Code} {name : η} {arguments : List Word} {signal : Signal}
      {memory : Memory} {state : σ} (hcode : m.frame.code = .op o rest) (ho : o.isCall = true)
      (hoffers : l.Offers name)
      (hanswer : l.host.call name arguments m.memory m.state = .raised signal memory state) :
      Effect l m (.halt (.raised signal) memory state)
  | call {o : Op} {rest : Code} {home index : Nat} {type : FuncType} {body : Body}
      {arguments operands : List Word} (hcode : m.frame.code = .op o rest) (ho : o.isCall = true)
      (hbody : l.body? home index = some (type, body)) (hdepth : m.depth < l.maxDepth) :
      Effect l m (.next { m with
        frame := .start home type body arguments
        callers := { m.frame with code := rest, operands } :: m.callers
        depth := m.depth + 1 })
  | back {caller : Frame} {callers : List Frame} {operands : List Word}
      (hcallers : m.callers = caller :: callers) :
      Effect l m (.next { m with frame := { caller with operands }, callers, depth := m.depth - 1 })

theorem effect_halt {e : Ending} (he : ∀ signal, e ≠ .raised signal) : m.Effect l (m.halt e) :=
  .stop he

theorem effect_giveBack (operands : List Word) :
    m.Effect l (giveBack { m with frame := { m.frame with operands } }) := by
  unfold giveBack
  dsimp only
  split
  · exact effect_halt (by simp)
  · split
    · exact effect_halt (by simp)
    · rename_i hcallers
      exact .back hcallers

theorem effect_branch (depth : Nat) (operands : List Word) :
    m.Effect l (branch { m with frame := { m.frame with operands } } depth) := by
  unfold branch
  split
  · exact effect_giveBack operands
  · rename_i hlabels
    exact .goOn rfl (.branch hlabels)

section

variable {o : Op} {rest : Code} (hcode : m.frame.code = .op o rest)

include hcode

theorem effect_proceed (operands : List Word) : m.Effect l (m.proceed rest operands) :=
  .goOn rfl (.rest hcode)

theorem effect_setLocal (index : Nat) (value : Word) (operands : List Word) :
    m.Effect l (m.setLocal index value rest operands) := by
  obtain ⟨⟨_, _, _, _, _, _⟩, _, _, _, _⟩ := m
  exact .goOn rfl (.rest hcode)

theorem effect_store (address : Nat) (value : Word) (operands : List Word) :
    m.Effect l (m.store address value rest operands) := by
  obtain ⟨⟨_, _, _, _, _, _⟩, _, _, _, _⟩ := m
  unfold store
  dsimp only
  split
  · rename_i hroom
    exact .store rfl (.rest hcode) hroom
  · exact .stop (by simp)

variable (ho : o.isCall = true)

include ho

theorem effect_enter {ref : FuncRef η} (hoffers : ∀ name, ref = .host name → l.Offers name)
    (arguments operands : List Word) : m.Effect l (m.enter l ref arguments rest operands) := by
  cases ref with
  | host name =>
    unfold enter
    dsimp only
    split
    · rename_i hanswer
      exact .answer hcode ho (hoffers name rfl) hanswer
    · rename_i hanswer
      exact .raise hcode ho (hoffers name rfl) hanswer
  | defined home index =>
    unfold enter
    dsimp only
    split
    · exact effect_halt (by simp)
    · rename_i hbody
      split
      · rename_i hdepth
        exact .call hcode ho hbody hdepth
      · exact effect_halt (by simp)

theorem effect_callWith {ref : FuncRef η} (hoffers : ∀ name, ref = .host name → l.Offers name)
    (type : FuncType) (operands : List Word) :
    m.Effect l (m.callWith l ref type rest operands) := by
  unfold callWith
  dsimp only
  split
  · exact effect_halt (by simp)
  · exact effect_enter hcode ho hoffers _ _

theorem effect_callAddress (type : FuncType) (address : Nat) (operands : List Word) :
    m.Effect l (m.callAddress l type address rest operands) := by
  unfold callAddress
  split
  · exact effect_halt (by simp)
  · exact effect_halt (by simp)
  · rename_i ref href
    split
    · exact effect_callWith hcode ho (fun name hname => .table (hname ▸ href)) _ _
    · exact effect_halt (by simp)

end

theorem effect_stepOp {o : Op} {rest : Code} (hcode : m.frame.code = .op o rest) :
    m.Effect l (m.stepOp l o rest) := by
  unfold stepOp
  -- an instruction that misses an operand stops; only calls leave the frame
  cases o with
  | const value => exact effect_proceed hcode _
  | localGet index =>
    dsimp only
    split
    · exact effect_proceed hcode _
    · exact effect_halt (by simp)
  | localSet index =>
    cases m.frame.operands with
    | nil => exact effect_halt (by simp)
    | cons value operands => exact effect_setLocal hcode _ _ _
  | drop | eqz =>
    cases m.frame.operands with
    | nil => exact effect_halt (by simp)
    | cons value operands => exact effect_proceed hcode _
  | binary op =>
    match m.frame.operands with
    | [] | [_] => exact effect_halt (by simp)
    | b :: a :: operands =>
      dsimp only
      split
      · exact effect_proceed hcode _
      · exact effect_halt (by simp)
  | load =>
    cases m.frame.operands with
    | nil => exact effect_halt (by simp)
    | cons address operands =>
      dsimp only
      split
      · exact effect_proceed hcode _
      · exact effect_halt (by simp)
  | store =>
    match m.frame.operands with
    | [] | [_] => exact effect_halt (by simp)
    | value :: address :: operands => exact effect_store hcode _ _ _
  | globalGet index =>
    dsimp only
    split
    · exact effect_proceed hcode _
    · exact effect_halt (by simp)
  | call function =>
    dsimp only
    split
    · exact effect_halt (by simp)
    · rename_i ref href
      obtain ⟨inst, hinst, href⟩ := Option.bind_eq_some_iff.mp href
      split
      · exact effect_halt (by simp)
      · exact effect_callWith hcode rfl (fun name hname => .import hinst (hname ▸ href)) _ _
  | callIndirect type =>
    cases m.frame.operands with
    | nil => exact effect_halt (by simp)
    | cons address operands =>
      dsimp only
      split
      · exact effect_halt (by simp)
      · exact effect_callAddress hcode rfl _ _ _
  | ret => exact effect_giveBack m.frame.operands
  | unreachable => exact effect_halt (by simp)
  | br depth => exact effect_branch depth m.frame.operands
  | brTable depths fallback =>
    cases m.frame.operands with
    | nil => exact effect_halt (by simp)
    | cons index operands => exact effect_branch _ operands

theorem effect_step : m.Effect l (m.step l) := by
  unfold step
  split
  · rename_i hcode
    exact effect_stepOp hcode
  · rename_i hcode
    exact .goOn rfl (.block hcode)
  · rename_i hcode
    exact .goOn rfl (.loop hcode)
  · rename_i hcode
    split
    · exact effect_halt (by simp)
    · exact .goOn rfl (.ifElse hcode (ite_eq_or_eq _ _ _))
  · split
    · exact effect_giveBack m.frame.operands
    · rename_i hlabels
      exact .goOn rfl (.done hlabels)

end Machine

end MutationAnalysis.Wasm
