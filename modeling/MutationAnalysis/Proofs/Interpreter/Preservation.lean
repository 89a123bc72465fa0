/-
What the interpreter keeps.

Instructions leave the state of the host alone; only the functions of the host change it, those that
programs call and the probes.  So what all functions of the host keep, every step keeps, and so does
a call from outside that ends.

* `Environment.Keeps.step`: what holds of the host's state before a step holds after it;
* `Environment.Keeps.ends`: what holds before a run that ends holds after it.
-/
import MutationAnalysis.Proofs.Interpreter.Basic
import MutationAnalysis.Proofs.Wasm.Preservation

namespace MutationAnalysis.Interpreter

open Wasm

variable {η σ ρ : Type}

/-- The state of the host after a step. -/
def Next.host : Next ρ σ → σ
  | .inl s => s.state
  | .inr r => r.2.2

/-- Every function of the host keeps what holds of its state. -/
def Environment.Keeps (env : Environment η σ) (P : σ → Prop) : Prop :=
  ∀ name arguments memory state, P state →
    (env.host.call name arguments memory state).Keeps (fun _ state => P state) fun _ => True

namespace Environment.Keeps

variable {env : Environment η σ} {P : σ → Prop} {file : RegisterFile ρ} {s : State ρ σ}

theorem withValues (hs : P s.state) (operands : List Operand) {act : List Word → Next ρ σ}
    (hact : ∀ words, P (act words).host) : P (s.withValues file operands act).host := by
  unfold State.withValues
  split
  · exact hs
  · exact hact _

theorem atBlock {state : σ} (hs : P state) (home index : Nat) (f : Function) (registers : ρ)
    (callers : List (Activation ρ × Option Register)) (memory : Memory) (block : Option Block) :
    P (State.atBlock home index f registers callers memory state block).host := by
  cases block <;> exact hs

theorem goTo (hs : P s.state) (target : UInt32) : P (s.goTo file target).host := by
  unfold State.goTo
  dsimp only
  split
  · exact hs
  · exact atBlock hs _ _ _ _ _ _ _

theorem compute (hs : P s.state) (i : Instruction) (rest : List Instruction) (words : List Word) :
    P (computeStep file s i rest words).host := by
  unfold computeStep
  split <;> exact hs

theorem load (hs : P s.state) (i : Instruction) (rest : List Instruction) (words : List Word) :
    P (loadStep file s i rest words).host := by
  unfold loadStep
  split
  · split <;> exact hs
  · exact hs

theorem store (hs : P s.state) (rest : List Instruction) (words : List Word) :
    P (storeStep s rest words).host := by
  unfold storeStep
  split
  · split <;> exact hs
  · exact hs

theorem branchIf (hs : P s.state) (i : Instruction) : P (branchIfStep file s i).host := by
  unfold branchIfStep
  split
  · split
    · exact hs
    · exact goTo hs _
  · exact hs

variable (h : env.Keeps P)

include h

theorem runProbe {state : σ} (hs : P state) (which : Probes η → η) (home index : Nat)
    (memory : Memory) :
    (∀ next, env.runProbe which home index memory state = .inl next → P next.2) ∧
      ∀ r, env.runProbe which home index memory state = .inr r → P r.2.2 := by
  unfold Environment.runProbe
  cases env.probes home with
  | none => exact ⟨fun next hnext => Sum.inl.inj hnext ▸ hs, nofun⟩
  | some probes =>
    have hcall := h (which probes) [UInt32.ofNat index + probes.offset] memory state hs
    dsimp only
    cases hanswer : env.host.call (which probes) [UInt32.ofNat index + probes.offset]
      memory state with
    | returned results memory' state' =>
      rw [hanswer] at hcall
      exact ⟨fun next hnext => Sum.inl.inj hnext ▸ hcall, nofun⟩
    | raised signal memory' state' =>
      rw [hanswer] at hcall
      exact ⟨nofun, fun r hr => Sum.inr.inj hr ▸ hcall.1⟩

theorem start {state : σ} (hs : P state) (home index : Nat) (f : Function) (arguments : List Word)
    (callers : List (Activation ρ × Option Register)) (memory : Memory) :
    P (env.start file home index f arguments callers memory state).host := by
  obtain ⟨hgo, hhalt⟩ := h.runProbe hs Probes.enter home index memory
  unfold Environment.start
  split
  · rename_i r hr
    exact hhalt r hr
  · rename_i next hnext
    exact atBlock (hgo _ hnext) _ _ _ _ _ _ _

theorem call (hs : P s.state) (ref : FuncRef η) (arguments : List Word) (dest : Option Register)
    (rest : List Instruction) : P (env.call file s ref arguments dest rest).host := by
  cases ref with
  | host name =>
    have hcall := h name arguments s.memory s.state hs
    unfold Environment.call
    dsimp only
    cases hanswer : env.host.call name arguments s.memory s.state with
    | returned results memory state =>
      rw [hanswer] at hcall
      exact hcall
    | raised signal memory state =>
      rw [hanswer] at hcall
      exact hcall.1
  | defined home index =>
    unfold Environment.call
    dsimp only
    split
    · exact hs
    · split
      · exact h.start hs _ _ _ _ _ _
      · exact hs

theorem callAddress (hs : P s.state) (type : FuncType) (address : Word) (arguments : List Word)
    (dest : Option Register) (rest : List Instruction) :
    P (env.callAddress file s type address arguments dest rest).host := by
  unfold Environment.callAddress
  split
  · exact hs
  · exact hs
  · split
    · exact h.call hs _ _ _ _
    · exact hs

theorem callName (hs : P s.state) (name : String) (arguments : List Word) (dest : Option Register)
    (rest : List Instruction) : P (env.callName file s name arguments dest rest).host := by
  unfold Environment.callName
  split
  · exact hs
  · split
    · exact h.call hs _ _ _ _
    · exact h.callAddress hs _ _ _ _ _
    · exact hs

theorem giveBack (hs : P s.state) (results : List Word) : P (env.giveBack file s results).host := by
  obtain ⟨hgo, hhalt⟩ := h.runProbe hs Probes.leave s.active.home s.active.index s.memory
  unfold Environment.giveBack
  split
  · rename_i r hr
    exact hhalt r hr
  · rename_i memory state hnext
    have hstate : P state := hgo _ hnext
    split <;> exact hstate

theorem instruction (hs : P s.state) (i : Instruction) (rest : List Instruction) :
    P (env.instructionStep file s i rest).host := by
  unfold instructionStep
  split
  · exact withValues hs _ fun words => load hs i rest words
  · exact withValues hs _ fun words => store hs rest words
  · split
    · exact goTo hs _
    · exact hs
  · exact branchIf hs i
  · split
    · exact hs
    · exact withValues hs _ fun words => h.callName hs _ _ _ _
  · split
    · exact hs
    · exact withValues hs _ fun words => h.callAddress hs _ _ _ _ _
  · exact withValues hs _ fun words => h.giveBack hs words
  · exact hs
  · exact withValues hs _ fun words => compute hs i rest words

theorem step (hs : P s.state) : P (env.step file s).host := by
  unfold Environment.step
  split
  · exact hs
  · exact h.instruction hs _ _

/-- What holds of the host's state holds when a run ends. -/
theorem ends {n : Nat} {r : Halt σ} (hs : P s.state) (hends : Ends (env.step file) n s r) :
    P r.2.2 := by
  induction hends with
  | halt hstep =>
    have hnext : P (env.step file _).host := h.step hs
    rw [hstep] at hnext
    exact hnext
  | next hstep _ ih =>
    have hnext : P (env.step file _).host := h.step hs
    rw [hstep] at hnext
    exact ih hnext

theorem endsFrom {next : Next ρ σ} {r : Halt σ} (hs : P next.host)
    (hends : env.EndsFrom file next r) : P r.2.2 := by
  cases next with
  | inl s =>
    obtain ⟨n, hn⟩ := hends
    exact h.ends hs hn
  | inr halt =>
    obtain rfl : halt = r := hends
    exact hs

end Environment.Keeps

end MutationAnalysis.Interpreter
