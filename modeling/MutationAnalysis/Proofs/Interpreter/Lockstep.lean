/-
Interpreters that go in step.

Two functions of the same blocks run, each with its own way to keep registers, and the registers
hold the same words (`Alike`).  An instruction that neither calls nor returns then does the same in
both: both stop alike, or both go on at the same place (`StaysAlike`), and the states of their
hosts, which need not be the same, stay as they are.  Calls and returns find the same words in their
operands, and what they do with them is up to what surrounds the functions.

* `Alike.instruction`: instructions that neither call nor return;
* `Alike.withValues`: what both do with the words of operands.
-/
import MutationAnalysis.Proofs.Interpreter.Basic
import MutationAnalysis.Proofs.Program.Validity

namespace MutationAnalysis.Interpreter

open Wasm

variable {η θ σ σ' ρ τ : Type}

/-- Registers kept in two ways hold the same while two functions of the same blocks run, as far as
those registers go that are used. -/
structure Alike (file : RegisterFile ρ) (file' : RegisterFile τ) (f g : Function)
    (used : Register → Prop) (same : ρ → τ → Prop) : Prop where
  blocks : g.blocks = f.blocks
  read : ∀ {x : ρ} {y : τ} {r : Register}, same x y → used r → file'.read y r = file.read x r
  write : ∀ {x : ρ} {y : τ} {r : Register} (w : Word), same x y → used r →
    same (file.write x r w) (file'.write y r w)
  goTo : ∀ {x : ρ} {y : τ} {target : UInt32}, same x y → target.toNat < f.blocks.length →
    Option.Rel (fun u v => v.1 = u.1 ∧ same u.2 v.2) (file.goTo f x target) (file'.goTo g y target)

/-- Both stop alike without having returned, or both go on in the function that is active: behind
the instruction or at the start of a block. -/
inductive StaysAlike (f : Function) (same : ρ → τ → Prop) (a : Activation ρ) (b : Activation τ)
    (callers : List (Activation ρ × Option Register))
    (callers' : List (Activation τ × Option Register)) (state : σ) (state' : σ')
    (rest : List Instruction) : Next ρ σ → Next τ σ' → Prop
  | halt {e : Ending} {memory : Memory} (he : ∀ results, e ≠ .returned results) :
      StaysAlike f same a b callers callers' state state' rest (.inr (e, memory, state))
        (.inr (e, memory, state'))
  | go {x : ρ} {y : τ} {instructions : List Instruction} {memory : Memory} (hsame : same x y)
      (hrest : instructions = rest ∨ ∃ b ∈ f.blocks, instructions = b.instructions) :
      StaysAlike f same a b callers callers' state state' rest
        (.inl ⟨{ a with registers := x, rest := instructions }, callers, memory, state⟩)
        (.inl ⟨{ b with registers := y, rest := instructions }, callers', memory, state'⟩)

theorem StaysAlike.elim {f : Function} {same : ρ → τ → Prop} {a : Activation ρ} {b : Activation τ}
    {callers : List (Activation ρ × Option Register)}
    {callers' : List (Activation τ × Option Register)} {state : σ} {state' : σ'}
    {rest : List Instruction} {next : Next ρ σ} {next' : Next τ σ'}
    (h : StaysAlike f same a b callers callers' state state' rest next next')
    {related : Next ρ σ → Next τ σ' → Prop}
    (hhalt : ∀ e memory, (∀ results, e ≠ .returned results) →
      related (.inr (e, memory, state)) (.inr (e, memory, state')))
    (hgo : ∀ x y instructions memory, same x y →
      (instructions = rest ∨ ∃ b ∈ f.blocks, instructions = b.instructions) →
      related (.inl ⟨{ a with registers := x, rest := instructions }, callers, memory, state⟩)
        (.inl ⟨{ b with registers := y, rest := instructions }, callers', memory, state'⟩)) :
    related next next' := by
  cases h with
  | halt he => exact hhalt _ _ he
  | go hsame hrest => exact hgo _ _ _ _ hsame hrest

namespace Alike

variable {file : RegisterFile ρ} {file' : RegisterFile τ} {f g : Function}
  {used : Register → Prop} {same : ρ → τ → Prop} (h : Alike file file' f g used same)

include h

theorem value?_eq {x : ρ} {y : τ} (hsame : same x y) {a : Operand}
    (hused : ∀ r, a = .register r → used r) : file'.value? y a = file.value? x a := by
  cases a with
  | register r => exact h.read hsame (hused r rfl)
  | immediate | block | symbol => rfl

theorem values?_eq {x : ρ} {y : τ} (hsame : same x y) {operands : List Operand}
    (hused : ∀ r, .register r ∈ operands → used r) :
    file'.values? y operands = file.values? x operands := by
  induction operands with
  | nil => rfl
  | cons a operands ih =>
    rw [RegisterFile.values?_cons, RegisterFile.values?_cons,
      h.value?_eq hsame fun r hr => hused r (by simp [hr]),
      ih fun r hr => hused r (List.mem_cons_of_mem a hr)]

theorem assign {x : ρ} {y : τ} (hsame : same x y) {dest : Option Register}
    (hused : ∀ r, dest = some r → used r) (result : Option Word) :
    same (file.assign x dest result) (file'.assign y dest result) := by
  match dest, result, hused with
  | some r, some w, hused => exact h.write w hsame (hused r rfl)
  | some _, none, _ | none, _, _ => exact hsame

variable {a : Activation ρ} {b : Activation τ} {callers : List (Activation ρ × Option Register)}
  {callers' : List (Activation τ × Option Register)} {memory : Memory} {state : σ} {state' : σ'}

/-- Both find the same words in their operands. -/
theorem withValues (hsame : same a.registers b.registers) {operands : List Operand}
    (hused : ∀ r, .register r ∈ operands → used r) {related : Next ρ σ → Next τ σ' → Prop}
    (hhalt : related (.inr (.stuck, memory, state)) (.inr (.stuck, memory, state')))
    {act : List Word → Next ρ σ} {act' : List Word → Next τ σ'}
    (hact : ∀ words, words.length = operands.length → related (act words) (act' words)) :
    related (State.withValues ⟨a, callers, memory, state⟩ file operands act)
      (State.withValues ⟨b, callers', memory, state'⟩ file' operands act') := by
  rw [State.withValues, State.withValues, h.values?_eq hsame hused]
  cases hwords : file.values? a.registers operands with
  | none => exact hhalt
  | some words => exact hact words (RegisterFile.values?_length hwords)

variable (hsame : same a.registers b.registers)

include hsame

theorem goTo_stays (ha : a.function = f) (hb : b.function = g) {target : UInt32}
    (htarget : target.toNat < f.blocks.length) (rest : List Instruction) :
    StaysAlike f same a b callers callers' state state' rest
      (State.goTo ⟨a, callers, memory, state⟩ file target)
      (State.goTo ⟨b, callers', memory, state'⟩ file' target) := by
  subst ha hb
  have hgoTo := h.goTo hsame htarget
  rw [State.goTo, State.goTo]
  -- both find the target, or neither does
  cases hx : file.goTo a.function a.registers target with
  | none =>
    cases hy : file'.goTo b.function b.registers target with
    | none => exact .halt nofun
    | some =>
      rw [hx, hy] at hgoTo
      cases hgoTo
  | some u =>
    cases hy : file'.goTo b.function b.registers target with
    | none =>
      rw [hx, hy] at hgoTo
      cases hgoTo
    | some v =>
      obtain ⟨k, x⟩ := u
      obtain ⟨k', y⟩ := v
      rw [hx, hy] at hgoTo
      cases hgoTo with
      | some hrel =>
        obtain ⟨rfl, hxy⟩ := hrel
        simp only [h.blocks]
        cases hblock : a.function.blocks[k']? with
        | none => exact .halt nofun
        | some block => exact .go hxy (.inr ⟨block, List.mem_of_getElem? hblock, rfl⟩)

theorem compute_stays (i : Instruction) (rest : List Instruction) (memory : Memory)
    (hused : ∀ r ∈ i.registers, used r) (words : List Word) :
    StaysAlike f same a b callers callers' state state' rest
      (Environment.computeStep file ⟨a, callers, memory, state⟩ i rest words)
      (Environment.computeStep file' ⟨b, callers', memory, state'⟩ i rest words) := by
  rw [Environment.computeStep, Environment.computeStep]
  match compute i.opcode words with
  | none | some (.error _) => exact .halt nofun
  | some (.ok w) =>
    exact .go (h.assign hsame (fun r hr => hused r (by simp [Instruction.registers, hr])) _)
      (.inl rfl)

theorem load_stays (i : Instruction) (rest : List Instruction)
    (hused : ∀ r ∈ i.registers, used r) (words : List Word) :
    StaysAlike f same a b callers callers' state state' rest
      (Environment.loadStep file ⟨a, callers, memory, state⟩ i rest words)
      (Environment.loadStep file' ⟨b, callers', memory, state'⟩ i rest words) := by
  match words with
  | [] | _ :: _ :: _ => exact .halt nofun
  | [address] =>
    rw [Environment.loadStep, Environment.loadStep]
    dsimp only
    cases wordAt? memory address.toNat with
    | none => exact .halt nofun
    | some w =>
      exact .go (h.assign hsame (fun r hr => hused r (by simp [Instruction.registers, hr])) _)
        (.inl rfl)

omit h in
theorem store_stays (rest : List Instruction) (words : List Word) :
    StaysAlike f same a b callers callers' state state' rest
      (Environment.storeStep ⟨a, callers, memory, state⟩ rest words)
      (Environment.storeStep ⟨b, callers', memory, state'⟩ rest words) := by
  match words with
  | [] | [_] | _ :: _ :: _ :: _ => exact .halt nofun
  | [address, w] =>
    rw [Environment.storeStep, Environment.storeStep]
    dsimp only
    cases putWordAt? memory address.toNat w with
    | none => exact .halt nofun
    | some memory' => exact .go hsame (.inl rfl)

/-- An instruction that neither calls nor returns does the same in both. -/
theorem instruction (ha : a.function = f) (hb : b.function = g) (env : Environment η σ)
    (env' : Environment θ σ') {p : Program} {i : Instruction} (hfits : i.Fits p f)
    (hused : ∀ r ∈ i.registers, used r) (hcall : i.opcode.isCall = false) (hret : i.opcode ≠ .ret)
    (rest : List Instruction) :
    StaysAlike f same a b callers callers' state state' rest
      (env.instructionStep file ⟨a, callers, memory, state⟩ i rest)
      (env'.instructionStep file' ⟨b, callers', memory, state'⟩ i rest) := by
  have hoperands : ∀ r, .register r ∈ i.operands → used r := fun r hr =>
    hused r (List.mem_append_right _ (List.mem_filterMap.mpr ⟨_, hr, rfl⟩))
  have hwithValues : ∀ (act : List Word → Next ρ σ) (act' : List Word → Next τ σ'),
      (∀ words, StaysAlike f same a b callers callers' state state' rest (act words) (act' words)) →
      StaysAlike f same a b callers callers' state state' rest
        (State.withValues ⟨a, callers, memory, state⟩ file i.operands act)
        (State.withValues ⟨b, callers', memory, state'⟩ file' i.operands act') :=
    fun act act' hact =>
      h.withValues hsame hoperands (.halt fun _ => Ending.noConfusion) fun words _ => hact words
  -- what computes from the values of its operands does so alike in both
  have hcompute := hwithValues _ _ (h.compute_stays hsame i rest memory hused)
  cases hfits with
  | binary hop =>
    rw [env.instructionStep_compute _ _ _ (.inl hop), env'.instructionStep_compute _ _ _ (.inl hop)]
    exact hcompute
  | unary hop =>
    rcases hop with rfl | rfl | rfl | rfl
    · exact hcompute
    · exact hcompute
    · exact hcompute
    · exact hwithValues _ _ (h.load_stays hsame _ rest hused)
  | loadConst => exact hcompute
  | store => exact hwithValues _ _ (store_stays hsame rest)
  | branch hop hs htarget =>
    simp only [Environment.instructionStep, hop, hs]
    exact h.goTo_stays hsame ha hb htarget rest
  | branchIf hop ho hc hs hy hn =>
    simp only [Environment.instructionStep, hop, Environment.branchIfStep, ho, hs]
    rw [h.value?_eq hsame fun r hr => hoperands r (by simp [ho, hr])]
    cases file.value? a.registers _ with
    | none => exact .halt fun _ => Ending.noConfusion
    | some w =>
      refine h.goTo_stays hsame ha hb ?_ rest
      split <;> assumption
  | call | callIndirect => exact absurd hcall (by simp [Opcode.isCall])
  | retNothing | retValue => exact absurd rfl hret
  | unreachable hop =>
    simp only [Environment.instructionStep, hop]
    exact .halt fun _ => Ending.noConfusion

end Alike

end MutationAnalysis.Interpreter
