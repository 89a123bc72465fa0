/-
Calls from outside.

`Linkage.call` calls the function of a reference and runs it to its end or to the last of its
steps.  Plain code would build a machine for each of its steps if it were run by
`Machine.run` itself, so `Machine.runUnpacked` holds the parts of the machine apart.  It does
the same steps: `runUnpacked_eq_run` says that both end alike, and `Linkage.call_defined`
that a call is a run of `Machine.run`.
-/
import MutationAnalysis.Wasm.Machine

namespace MutationAnalysis.Wasm

/-- Runs the machine that has the given parts for at most the given number of steps.  Plain code and
constructs are done on the parts; for all else, and where an operand is missing, the machine is put
together for one step. -/
def Machine.runUnpacked {η σ : Type} (l : Linkage η σ) : Nat → Code → List Label → List Word →
    Array Word → Nat → Nat → List Frame → Nat → Memory → σ → Run σ
  | 0, _, _, _, _, _, _, _, _, memory, state => ⟨.trapped .interrupt, memory, state, 0⟩
  | steps + 1, code, labels, operands, locals, home, results, callers, depth, memory, state =>
    let packed (_ : Unit) : Run σ :=
      match Machine.step l
          ⟨⟨code, labels, operands, locals, home, results⟩, callers, depth, memory, state⟩ with
      | .next ⟨⟨code, labels, operands, locals, home, results⟩, callers, depth, memory, state⟩ =>
        runUnpacked l steps code labels operands locals home results callers depth memory state
      | .halt e memory state => ⟨e, memory, state, steps⟩
    match code with
    | .op o rest =>
      match o with
      | .const value =>
        runUnpacked l steps rest labels (value :: operands) locals home results callers depth memory
          state
      | .localGet index =>
        if h : index < locals.size then
          runUnpacked l steps rest labels (locals[index] :: operands) locals home results callers
            depth memory state
        else packed ()
      | .localSet index =>
        match operands with
        | value :: operands =>
          runUnpacked l steps rest labels operands (locals.setIfInBounds index value) home results
            callers depth memory state
        | [] => packed ()
      | .binary op =>
        match operands with
        | b :: a :: operands =>
          match op.eval a b with
          | .ok value =>
            runUnpacked l steps rest labels (value :: operands) locals home results callers depth
              memory state
          | .error trap => ⟨.trapped trap, memory, state, steps⟩
        | _ => packed ()
      | .br target =>
        match labels.drop target with
        | label :: labels =>
          runUnpacked l steps label.onBranch labels label.operands locals home results callers depth
            memory state
        | [] => packed ()
      | .brTable targets fallback =>
        match operands with
        | index :: _ =>
          match labels.drop (targets.getD index.toNat fallback) with
          | label :: labels =>
            runUnpacked l steps label.onBranch labels label.operands locals home results callers
              depth memory state
          | [] => packed ()
        | [] => packed ()
      | _ => packed ()
    | .block body rest =>
      runUnpacked l steps body (⟨rest, rest, operands⟩ :: labels) operands locals home results
        callers depth memory state
    | .loop body rest =>
      runUnpacked l steps body (⟨.loop body rest, rest, operands⟩ :: labels) operands locals home
        results callers depth memory state
    | .ifElse yes no rest =>
      match operands with
      | condition :: operands =>
        runUnpacked l steps (if condition ≠ 0 then yes else no) (⟨rest, rest, operands⟩ :: labels)
          operands locals home results callers depth memory state
      | [] => packed ()
    | .done => packed ()

/-- Holding the parts apart changes nothing. -/
theorem Machine.runUnpacked_eq_run {η σ : Type} (l : Linkage η σ) (steps : Nat) (code : Code)
    (labels : List Label) (operands : List Word) (locals : Array Word) (home results : Nat)
    (callers : List Frame) (depth : Nat) (memory : Memory) (state : σ) :
    Machine.runUnpacked l steps code labels operands locals home results callers depth memory state
      = Machine.run l steps
          ⟨⟨code, labels, operands, locals, home, results⟩, callers, depth, memory, state⟩ := by
  induction steps generalizing code labels operands locals home results callers depth memory state
  with
  | zero => rfl
  | succ steps ih =>
    have packed (m : Machine σ) :
        (match Machine.step l m with
          | .next ⟨⟨code, labels, operands, locals, home, results⟩, callers, depth,
              memory, state⟩ =>
            Machine.run l steps
              ⟨⟨code, labels, operands, locals, home, results⟩, callers, depth, memory, state⟩
          | .halt e memory state => (⟨e, memory, state, steps⟩ : Run σ))
          = Machine.run l (steps + 1) m := by
      rw [Machine.run_succ]
      cases Machine.step l m <;> rfl
    simp only [Machine.runUnpacked, ih, packed]
    cases code with
    | op o rest =>
      cases o with
      | const => rfl
      | localGet index =>
        dsimp only
        split
        case isTrue h => rw [Machine.run_succ, Machine.step_localGet l h]
        case isFalse => rfl
      | localSet =>
        cases operands <;> rfl
      | binary op =>
        match operands with
        | [] | [_] => rfl
        | b :: a :: operands =>
          dsimp only
          rw [Machine.run_succ, Machine.step_binary]
          cases op.eval a b <;> rfl
      | br target =>
        dsimp only
        rw [Machine.run_succ, Machine.step_br, Machine.branch]
        cases labels.drop target <;> rfl
      | brTable targets fallback =>
        cases operands with
        | nil => rfl
        | cons index operands =>
          dsimp only
          rw [Machine.run_succ, Machine.step_brTable, Machine.branch]
          cases labels.drop (targets.getD index.toNat fallback) <;> rfl
      | _ => rfl
    | ifElse => cases operands <;> rfl
    | _ => rfl

/-- Calls the function of a reference from outside. -/
def Linkage.call {η σ : Type} (l : Linkage η σ) (steps : Nat) (ref : FuncRef η)
    (arguments : List Word) (memory : Memory) (state : σ) : Run σ :=
  match ref with
  | .host name =>
    match l.host.call name arguments memory state with
    | .returned results memory state => ⟨.returned results, memory, state, steps⟩
    | .raised signal memory state => ⟨.raised signal, memory, state, steps⟩
  | .defined home index =>
    match l.body? home index with
    | none => ⟨.stuck, memory, state, steps⟩
    | some (type, body) =>
      if 0 < l.maxDepth then
        match Frame.start home type body arguments with
        | ⟨code, labels, operands, locals, home, results⟩ =>
          Machine.runUnpacked l steps code labels operands locals home results [] 0 memory state
      else ⟨.trapped .stackOverflow, memory, state, steps⟩

/-- A call of a defined function runs the machine from the function's first frame. -/
theorem Linkage.call_defined {η σ : Type} {l : Linkage η σ} {home index : Nat} {type : FuncType}
    {body : Body} (hbody : l.body? home index = some (type, body)) (hdepth : 0 < l.maxDepth)
    (steps : Nat) (arguments : List Word) (memory : Memory) (state : σ) :
    l.call steps (.defined home index) arguments memory state
      = Machine.run l steps ⟨.start home type body arguments, [], 0, memory, state⟩ := by
  simp only [Linkage.call, hbody, hdepth, if_true, Machine.runUnpacked_eq_run]

end MutationAnalysis.Wasm
