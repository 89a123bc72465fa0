/-
Programs whose functions are reached through stubs.

Of two environments, the second does through stubs what the first does directly (`Diverts`): some
functions of the first are stubs in the second, and the cell that a stub calls through holds the
address of the function under another name.  Both run the same instructions on the same registers;
the second has a stub among the callers wherever one has called (`Waits`).  So what the one ends
with, the other does too, as long as the stack of neither is exhausted: the second needs at least
the depth of the first and at most one call more than twice of it.

* `diverted_step`: what a step of the first leads to, the second gets to in one step or more;
* `Diverts.finishes_first`, `Diverts.finishes_second`: calls end alike.
-/
import MutationAnalysis.Proofs.Interpreter.Registers
import MutationAnalysis.Unit.Preparation

namespace MutationAnalysis.Interpreter

open Wasm Lowering

variable {η σ ρ : Type}

/-! ### Entering functions -/

/-- A stack that is used up. -/
def overflow (memory : Memory) (state : σ) : Halt σ := (.trapped .stackOverflow, memory, state)

/-- Starts a function on behalf of callers if the stack has room. -/
def Environment.enter (env : Environment η σ) (file : RegisterFile ρ) (home index : Nat)
    (f : Function) (arguments : List Word) (callers : List (Activation ρ × Option Register))
    (memory : Memory) (state : σ) : Next ρ σ :=
  if 0 < env.maxDepth ∧ callers.length ≤ env.maxDepth then
    env.start file home index f arguments callers memory state
  else .inr (overflow memory state)

variable {env : Environment η σ} {file : RegisterFile ρ} {home index : Nat} {f : Function}
  {arguments : List Word} {memory : Memory} {state : σ}

theorem call_defined {s : State ρ σ} (hf : env.function? home index = some f)
    (dest : Option Register) (rest : List Instruction) :
    env.call file s (.defined home index) arguments dest rest
      = env.enter file home index f arguments (({ s.active with rest }, dest) :: s.callers) s.memory
          s.state := by
  have hroom : (0 < env.maxDepth ∧ (({ s.active with rest }, dest) :: s.callers).length
      ≤ env.maxDepth) ↔ s.callers.length < env.maxDepth := by
    rw [List.length_cons]
    omega
  simp only [Environment.call, hf, Environment.enter, hroom]
  rfl

theorem finishes_defined_iff (hf : env.function? home index = some f) {r : Halt σ} :
    env.Finishes file (.defined home index) arguments memory state r ↔
      env.EndsFrom file (env.enter file home index f arguments [] memory state) r := by
  simp only [Environment.Finishes, hf, Environment.enter, List.length_nil, Nat.zero_le, and_true]
  split
  · exact Iff.rfl
  · rw [Environment.EndsFrom, overflow, eq_comm]

theorem giveBack_eq (hprobes : ∀ home, env.probes home = none) {s : State ρ σ}
    (results : List Word) :
    env.giveBack file s results =
      match s.callers with
      | [] => .inr (.returned results, s.memory, s.state)
      | (caller, dest) :: callers =>
        .inl ⟨{ caller with registers := file.assign caller.registers dest results.head? }, callers,
          s.memory, s.state⟩ := by
  have hrun : env.runProbe Probes.leave s.active.home s.active.index s.memory s.state
      = .inl (s.memory, s.state) := by
    simp only [Environment.runProbe, hprobes]
  cases hcallers : s.callers <;> simp only [Environment.giveBack, hrun, hcallers]

theorem start_eq (hprobes : ∀ home, env.probes home = none)
    {callers : List (Activation ρ × Option Register)} :
    env.start file home index f arguments callers memory state
      = State.atBlock home index f (file.start f arguments) callers memory state
          ((file.first f (file.start f arguments)).bind (f.blocks[·]?)) := by
  simp only [Environment.start, Environment.runProbe, hprobes]

/-! ### Stubs -/

/-- The register that takes the result in the stub of a function. -/
def stubResult (f : Function) : Option Register :=
  if f.returnType = .int then some f.numParams.toUInt8 else none

/-- The registers that the stub of a function passes on. -/
def stubArguments (f : Function) : List Register :=
  (List.range f.numParams.toNat).map UInt8.ofNat

theorem stub_blocks (f : Function) (cell : String) :
    (f.stub cell).blocks
      = [⟨[.throughCell cell (stubArguments f) (stubResult f), .returning (stubResult f)]⟩] := rfl

theorem stubResult_isSome (f : Function) :
    (stubResult f).isSome = (funcType f.signature).hasResult := by
  rw [stubResult, funcType, Signature.returnsValue, Function.signature]
  cases f.returnType <;> rfl

section

variable {cell : String} (hparams : f.numParams.toNat ≤ 255)

include hparams

theorem stub_registersNeeded : (f.stub cell).registersNeeded < 2 ^ 32 - 1 := by
  have hused := (f.stub cell).usedRegisters_le
  have hlocals : (f.stub cell).numLocals.toNat ≤ 1 := by
    show (if f.returnType = .int then (1 : UInt64) else 0).toNat ≤ 1
    split <;> decide
  have hsame : (f.stub cell).numParams = f.numParams := rfl
  rw [Function.registersNeeded, hsame]
  omega

theorem stubResult_lt {r : Register} (hr : stubResult f = some r) :
    r.toNat < (f.stub cell).registersNeeded := by
  rw [stubResult] at hr
  split at hr
  · rename_i hint
    obtain rfl := Option.some.inj hr
    have hlocals : (f.stub cell).numLocals = 1 := if_pos hint
    have hsame : (f.stub cell).numParams = f.numParams := rfl
    have hr : f.numParams.toUInt8.toNat = f.numParams.toNat := by
      rw [UInt64.toNat_toUInt8]
      omega
    have hone : (1 : UInt64).toNat = 1 := rfl
    rw [Function.registersNeeded, hlocals, hsame, hr, hone]
    omega
  · cases hr

/-- The stub finds its arguments in the registers that it passes on. -/
theorem stub_values (hlength : arguments.length = f.numParams.toNat) :
    RegisterFile.lowered.values? (RegisterFile.lowered.start (f.stub cell) arguments)
      ((stubArguments f).map .register) = some arguments := by
  have hholds := holds_start (f := f.stub cell) (stub_registersNeeded hparams) hlength
  have htoNat : ∀ i < f.numParams.toNat, (UInt8.ofNat i).toNat = i := fun i hi =>
    UInt8.toNat_ofNat_of_lt' (Nat.lt_of_lt_of_le hi (Nat.le_trans hparams (by decide)))
  have hread : ∀ r ∈ stubArguments f,
      RegisterFile.lowered.read (RegisterFile.lowered.start (f.stub cell) arguments) r
        = some (arguments.getD r.toNat 0) := by
    intro r hr
    obtain ⟨i, hi, rfl⟩ := List.mem_map.mp hr
    refine hholds.get _ ?_
    rw [htoNat i (List.mem_range.mp hi)]
    refine Nat.lt_of_lt_of_le (List.mem_range.mp hi) (Nat.le_trans ?_ (Nat.le_max_right _ _))
    exact Nat.le_add_right _ _
  rw [RegisterFile.values?_registers hread, stubArguments, List.map_map]
  congr 1
  refine List.ext_getElem (by simp [hlength]) fun i hi hi' => ?_
  have hlt : i < f.numParams.toNat := by omega
  rw [List.getElem_map, List.getElem_range, Function.comp_apply, htoNat i hlt,
    List.getD_eq_getElem?_getD, List.getElem?_eq_getElem hi']
  rfl

end

/-! ### Two environments -/

variable {env' : Environment η σ}

/-- What becomes of a function: it stays, or a stub calls it under another name. -/
inductive IsDiverted (env' : Environment η σ) (home index : Nat) (f : Function) : Prop
  | same (h : env'.function? home index = some f)
  | stub {cell name : String} {target : Nat} (hparams : f.numParams.toNat ≤ 255)
      (hstub : env'.function? home index = some (f.stub cell))
      (htarget : env'.function? home target = some { f with name })
      (hcell : env'.table[(env'.cell home cell).toNat]? = some (some (.defined home target)))

/-- A name that two programs call leads to the same function. -/
inductive SameCallee (env env' : Environment η σ) (home : Nat) (p p' : Program) (name : String) :
    Prop
  | own {index : Nat} (h : p.functionIndex? name = some index)
      (h' : p'.functionIndex? name = some index)
  | other {s : Signature} {ref : FuncRef η} (h : p.functionIndex? name = none)
      (h' : p'.functionIndex? name = none) (hs : p.signature? name = some s)
      (hs' : p'.signature? name = some s)
      (ht : env.table[(env.address home name).toNat]? = some (some ref))
      (ht' : env'.table[(env'.address home name).toNat]? = some (some ref))
      (href : (env.type? ref).isSome)

/-- The second environment does through stubs what the first does directly. -/
structure Diverts (env env' : Environment η σ) : Prop where
  host : env'.host = env.host
  noProbes : ∀ home, env.probes home = none
  noProbes' : ∀ home, env'.probes home = none
  valid : ∀ p ∈ env.programs, p.IsValid
  function : ∀ (home index : Nat) (f : Function), env.function? home index = some f →
    IsDiverted env' home index f
  callee : ∀ (home : Nat) (p : Program), env.programs[home]? = some p →
    ∃ p', env'.programs[home]? = some p' ∧ ∀ i ∈ p.instructions, ∀ name, i.callee = some name →
      i.opcode = .call ∧ SameCallee env env' home p p' name

theorem IsDiverted.exists_function (h : IsDiverted env' home index f) :
    ∃ g, env'.function? home index = some g ∧ g.signature = f.signature := by
  cases h with
  | same h => exact ⟨f, h, rfl⟩
  | @stub cell _ _ _ hstub => exact ⟨f.stub cell, hstub, rfl⟩

theorem Diverts.type?_eq (h : Diverts env env') {ref : FuncRef η} {type : FuncType}
    (htype : env.type? ref = some type) : env'.type? ref = some type := by
  cases ref with
  | host name =>
    rw [Environment.type?, h.host]
    exact htype
  | defined home index =>
    obtain ⟨f, hf, rfl⟩ := Option.map_eq_some_iff.mp htype
    obtain ⟨g, hg, hsignature⟩ := (h.function home index f hf).exists_function
    rw [Environment.type?, hg, Option.map_some, hsignature]

/-! ### Related states -/

/-- The same function runs in both, under whatever name, and does the same next. -/
structure Twin (env : Environment η σ) (a a' : Activation (Array Word)) : Prop where
  home : a'.home = a.home
  function : ∃ name, a'.function = { a.function with name }
  registers : a'.registers = a.registers
  rest : a'.rest = a.rest
  program : ∃ p, env.programs[a.home]? = some p ∧ a.function ∈ p.functions
  mem : ∀ i ∈ a.rest, i ∈ a.function.instructions

/-- A stub that waits for so many words, which it gives back. -/
structure IsWaitingStub (n : Nat) (w : Activation (Array Word)) (dest : Option Register) :
    Prop where
  rest : w.rest = [.returning dest]
  results : n = dest.toList.length
  room : ∀ r, dest = some r → r.toNat < w.registers.size

/-- The callers of a function that gives back so many words.  On the side of the stubs one of them
may be the last caller, and between any two others. -/
inductive Waits (env : Environment η σ) : Nat → Bool →
    List (Activation (Array Word) × Option Register) →
    List (Activation (Array Word) × Option Register) → Prop
  | nil {n : Nat} : Waits env n false [] []
  | caller {n : Nat} {b : Bool} {a a' : Activation (Array Word)} {dest : Option Register}
      {callers callers' : List (Activation (Array Word) × Option Register)} (h : Twin env a a')
      (hrest : Waits env a.results b callers callers') :
      Waits env n false ((a, dest) :: callers) ((a', dest) :: callers')
  | stub {n : Nat} {w : Activation (Array Word)} {dest : Option Register}
      {callers callers' : List (Activation (Array Word) × Option Register)}
      (h : IsWaitingStub n w dest) (hrest : Waits env n false callers callers') :
      Waits env n true callers ((w, dest) :: callers')

inductive InStep (env : Environment η σ) : State (Array Word) σ → State (Array Word) σ → Prop
  | mk {a a' : Activation (Array Word)} {b : Bool}
      {callers callers' : List (Activation (Array Word) × Option Register)} {memory : Memory}
      {state : σ} (h : Twin env a a') (hwaits : Waits env a.results b callers callers') :
      InStep env ⟨a, callers, memory, state⟩ ⟨a', callers', memory, state⟩

/-- The second environment gets to what the first does next, unless the stack of one of them is used
up before that of the other. -/
inductive Diverted (env env' : Environment η σ) :
    Next (Array Word) σ → Next (Array Word) σ → Prop
  | go {s t : State (Array Word) σ} {next' : Next (Array Word) σ}
      (hleads : Leads (env'.step .lowered) next' (.inl t)) (h : InStep env s t) :
      Diverted env env' (.inl s) next'
  | halt {r : Halt σ} {next' : Next (Array Word) σ}
      (hleads : Leads (env'.step .lowered) next' (.inr r)) : Diverted env env' (.inr r) next'
  | overflowsFirst {memory : Memory} {state : σ} {next' : Next (Array Word) σ}
      (hdepth : env.maxDepth < env'.maxDepth) :
      Diverted env env' (.inr (overflow memory state)) next'
  | overflowsSecond {memory : Memory} {state : σ} {next next' : Next (Array Word) σ}
      (hdepth : env'.maxDepth < 2 * env.maxDepth + 1)
      (hleads : Leads (env'.step .lowered) next' (.inr (overflow memory state))) :
      Diverted env env' next next'

theorem Diverted.of_leads {next next' next'' : Next (Array Word) σ}
    (hleads : Leads (env'.step .lowered) next' next'') (h : Diverted env env' next next'') :
    Diverted env env' next next' := by
  cases h with
  | go hleads' hrelated => exact .go (hleads.trans hleads') hrelated
  | halt hleads' => exact .halt (hleads.trans hleads')
  | overflowsFirst hdepth => exact .overflowsFirst hdepth
  | overflowsSecond hdepth hleads' => exact .overflowsSecond hdepth (hleads.trans hleads')

theorem Diverted.same_halt (r : Halt σ) : Diverted env env' (.inr r) (.inr r) :=
  .halt (.refl _)

/-- Among the callers of the second are those of the first, and a stub for each at most. -/
theorem Waits.length_le {n : Nat} {b : Bool}
    {callers callers' : List (Activation (Array Word) × Option Register)}
    (h : Waits env n b callers callers') :
    callers.length ≤ callers'.length ∧
      callers'.length ≤ 2 * callers.length + (if b then 1 else 0) := by
  induction h with
  | nil => exact ⟨Nat.le_refl 0, Nat.le_refl 0⟩
  | @caller _ b _ _ _ _ _ _ _ ih =>
    have hb : (if b then 1 else 0) ≤ 1 := by split <;> omega
    simp only [List.length_cons, Bool.false_eq_true, if_false]
    omega
  | stub _ _ ih =>
    simp only [List.length_cons, if_true, Bool.false_eq_true, if_false] at ih ⊢
    omega

/-! ### Calls -/

theorem alike_rename (f : Function) (name : String) :
    Alike .lowered .lowered f { f with name } (fun _ => True) (fun x y => y = x) where
  blocks := rfl
  read := by
    rintro x _ r rfl -
    rfl
  write := by
    rintro x _ r w rfl -
    rfl
  goTo := by
    rintro x y target hxy -
    have hgoTo : RegisterFile.lowered.goTo { f with name } y target
        = RegisterFile.lowered.goTo f x target := by
      rw [hxy]
      rfl
    rw [hgoTo]
    cases RegisterFile.lowered.goTo f x target with
    | none => exact .none
    | some u => exact .some ⟨rfl, rfl⟩

variable {callers callers' : List (Activation (Array Word) × Option Register)}

/-- A function and the same under another name start alike. -/
theorem diverted_body (h : Diverts env env') (hf : env.function? home index = some f)
    (name : String) (target : Nat) {b : Bool}
    (hwaits : Waits env (funcType f.signature).results b callers callers')
    (arguments : List Word) (memory : Memory) (state : σ) :
    Diverted env env' (env.enter .lowered home index f arguments callers memory state)
      (env'.enter .lowered home target { f with name } arguments callers' memory state) := by
  obtain ⟨p, hp, hfunction⟩ := function?_eq_some.mp hf
  obtain ⟨hle, hle'⟩ := hwaits.length_le
  have hb : (if b then 1 else 0) ≤ 1 := by split <;> omega
  rw [Environment.enter, Environment.enter]
  -- stubs are callers too, so the second environment may run out of room before the first
  by_cases hroom : 0 < env.maxDepth ∧ callers.length ≤ env.maxDepth
  · rw [if_pos hroom]
    by_cases hroom' : 0 < env'.maxDepth ∧ callers'.length ≤ env'.maxDepth
    · rw [if_pos hroom', start_eq h.noProbes, start_eq h.noProbes']
      have hstart : RegisterFile.lowered.start { f with name } arguments
          = RegisterFile.lowered.start f arguments := rfl
      rw [hstart]
      generalize RegisterFile.lowered.start f arguments = registers
      have hfirst : RegisterFile.lowered.first { f with name } registers
          = RegisterFile.lowered.first f registers := rfl
      rw [hfirst]
      cases hblock : (RegisterFile.lowered.first f registers).bind (f.blocks[·]?) with
      | none => exact .same_halt _
      | some block =>
        obtain ⟨k, -, hk⟩ := Option.bind_eq_some_iff.mp hblock
        refine .go (.refl _) (.mk ⟨rfl, ⟨name, rfl⟩, rfl, rfl,
          ⟨p, hp, List.mem_of_getElem? hfunction⟩, ?_⟩ hwaits)
        exact fun i hi => List.mem_flatMap.mpr ⟨block, List.mem_of_getElem? hk, hi⟩
    · rw [if_neg hroom']
      exact .overflowsSecond (by omega) (.refl _)
  · rw [if_neg hroom]
    by_cases hroom' : 0 < env'.maxDepth ∧ callers'.length ≤ env'.maxDepth
    · exact .overflowsFirst (by omega)
    · rw [if_neg hroom']
      exact .same_halt _

/-- Once it has started, a stub calls through its cell and waits. -/
theorem stub_calls (h : Diverts env env') (hparams : f.numParams.toNat ≤ 255) {cell name : String}
    {target : Nat} (htarget : env'.function? home target = some { f with name })
    (hcell : env'.table[(env'.cell home cell).toNat]? = some (some (.defined home target)))
    (hlength : arguments.length = f.numParams.toNat) (index : Nat)
    (callers' : List (Activation (Array Word) × Option Register)) (memory : Memory) (state : σ) :
    ∃ w : Activation (Array Word), IsWaitingStub (funcType f.signature).results w (stubResult f) ∧
      Leads (env'.step .lowered)
        (env'.start .lowered home index (f.stub cell) arguments callers' memory state)
        (env'.enter .lowered home target { f with name } arguments
          ((w, stubResult f) :: callers') memory state) := by
  have hbound : (f.stub cell).registersNeeded < 2 ^ 32 - 1 := stub_registersNeeded hparams
  have hvalues : RegisterFile.lowered.values? (RegisterFile.lowered.start (f.stub cell) arguments)
      ((stubArguments f).map .register) = some arguments := stub_values hparams hlength
  have hsize := (holds_start (f := f.stub cell) hbound hlength).size
  have hfirst := first_lowered (f := f.stub cell) hbound hlength (by simp [stub_blocks])
  generalize hregisters : RegisterFile.lowered.start (f.stub cell) arguments = registers at *
  refine ⟨⟨home, index, f.stub cell, registers, [.returning (stubResult f)]⟩, ⟨rfl, ?_, ?_⟩, ?_⟩
  · rw [FuncType.results, ← stubResult_isSome]
    cases stubResult f <;> rfl
  · intro r hr
    show r.toNat < registers.size
    rw [hsize]
    exact Nat.lt_succ_of_lt (stubResult_lt hparams hr)
  · -- the stub's only block hands its parameters to the function in the cell
    rw [start_eq h.noProbes', hregisters, hfirst]
    refine .step ?_
    have htype : env'.type? (.defined home target)
        = some ⟨arguments.length, (stubResult f).isSome⟩ := by
      rw [Environment.type?, htarget, Option.map_some, stubResult_isSome, hlength]
      rfl
    have hstep : env'.step .lowered
        ⟨⟨home, index, f.stub cell, registers, [.throughCell cell (stubArguments f) (stubResult f),
          .returning (stubResult f)]⟩, callers', memory, state⟩
        = env'.enter .lowered home target { f with name } arguments
          ((⟨home, index, f.stub cell, registers, [.returning (stubResult f)]⟩, stubResult f)
            :: callers') memory state := by
      show State.withValues _ RegisterFile.lowered ((stubArguments f).map .register) _ = _
      rw [State.withValues, hvalues]
      show env'.callAddress _ _ _ (env'.cell home cell) _ _ _ = _
      rw [Environment.callAddress, hcell]
      exact (if_pos htype).trans (call_defined htarget _ _)
    exact .of_eq hstep

/-- Entering a function does in the second environment what it does in the first. -/
theorem diverted_enter (h : Diverts env env') (hf : env.function? home index = some f)
    {g : Function} (hg : env'.function? home index = some g)
    (hwaits : Waits env (funcType f.signature).results false callers callers')
    (hlength : arguments.length = f.numParams.toNat) (memory : Memory) (state : σ) :
    Diverted env env' (env.enter .lowered home index f arguments callers memory state)
      (env'.enter .lowered home index g arguments callers' memory state) := by
  cases h.function home index f hf with
  | same hsame =>
    obtain rfl := Option.some.inj (hsame.symm.trans hg)
    exact diverted_body h hf f.name index hwaits arguments memory state
  | stub hparams hstub htarget hcell =>
    obtain rfl := Option.some.inj (hstub.symm.trans hg)
    obtain ⟨hle, hle'⟩ := hwaits.length_le
    simp only [Bool.false_eq_true, if_false] at hle'
    by_cases hroom' : 0 < env'.maxDepth ∧ callers'.length ≤ env'.maxDepth
    · obtain ⟨w, hw, hleads⟩ := stub_calls h hparams htarget hcell hlength index callers' memory
        state
      rw [Environment.enter, Environment.enter, if_pos hroom']
      exact (diverted_body h hf _ _ (.stub hw hwaits) arguments memory state).of_leads hleads
    · rw [Environment.enter, Environment.enter, if_neg hroom']
      by_cases hroom : 0 < env.maxDepth ∧ callers.length ≤ env.maxDepth
      · exact .overflowsSecond (by omega) (.refl _)
      · rw [if_neg hroom]
        exact .same_halt _

section

variable {a a' : Activation (Array Word)} {b : Bool} {dest : Option Register}
  {rest : List Instruction}

theorem Twin.go (h : Twin env a a') {x y : Array Word} (hxy : y = x)
    (hrest : (∀ i ∈ rest, i ∈ a.rest) ∨ ∃ block ∈ a.function.blocks, rest = block.instructions) :
    Twin env { a with registers := x, rest } { a' with registers := y, rest } := by
  refine ⟨h.home, h.function, hxy, rfl, h.program, fun i hi => ?_⟩
  rcases hrest with hrest | ⟨block, hblock, rfl⟩
  · exact h.mem i (hrest i hi)
  · exact List.mem_flatMap.mpr ⟨block, hblock, hi⟩

theorem diverted_call (h : Diverts env env') (htwin : Twin env a a')
    (hwaits : Waits env a.results b callers callers') (hrest : ∀ i ∈ rest, i ∈ a.rest)
    {ref : FuncRef η} {type : FuncType} (htype : env.type? ref = some type)
    (hlength : arguments.length = type.params) (memory : Memory) (state : σ) :
    Diverted env env' (env.call .lowered ⟨a, callers, memory, state⟩ ref arguments dest rest)
      (env'.call .lowered ⟨a', callers', memory, state⟩ ref arguments dest rest) := by
  cases ref with
  | host name =>
    rw [Environment.call, Environment.call, h.host]
    dsimp only
    cases env.host.call name arguments memory state with
    | returned results memory' state' =>
      have hassign : RegisterFile.lowered.assign a'.registers dest results.head?
          = RegisterFile.lowered.assign a.registers dest results.head? := by rw [htwin.registers]
      exact .go (.refl _) (.mk (htwin.go hassign (.inl hrest)) hwaits)
    | raised signal memory' state' => exact .same_halt _
  | defined home index =>
    obtain ⟨f, hf, rfl⟩ := Option.map_eq_some_iff.mp htype
    obtain ⟨g, hg, -⟩ := (h.function home index f hf).exists_function
    rw [call_defined hf, call_defined hg]
    have hcaller : Twin env { a with rest } { a' with rest } :=
      htwin.go htwin.registers (.inl hrest)
    exact diverted_enter h hf hg (.caller hcaller hwaits) hlength memory state

theorem diverted_callAddress (h : Diverts env env') (htwin : Twin env a a')
    (hwaits : Waits env a.results b callers callers') (hrest : ∀ i ∈ rest, i ∈ a.rest)
    {ref : FuncRef η} (href : (env.type? ref).isSome) {address address' : Word}
    (ht : env.table[address.toNat]? = some (some ref))
    (ht' : env'.table[address'.toNat]? = some (some ref)) {type : FuncType}
    (hlength : arguments.length = type.params) (memory : Memory) (state : σ) :
    Diverted env env'
      (env.callAddress .lowered ⟨a, callers, memory, state⟩ type address arguments dest rest)
      (env'.callAddress .lowered ⟨a', callers', memory, state⟩ type address' arguments dest
        rest) := by
  obtain ⟨actual, hactual⟩ := Option.isSome_iff_exists.mp href
  rw [Environment.callAddress, Environment.callAddress, ht, ht']
  simp only [hactual, h.type?_eq hactual]
  split
  · rename_i heq
    obtain rfl := Option.some.inj heq
    exact diverted_call h htwin hwaits hrest hactual hlength memory state
  · exact .same_halt _

theorem diverted_callName (h : Diverts env env') (htwin : Twin env a a')
    (hwaits : Waits env a.results b callers callers') (hrest : ∀ i ∈ rest, i ∈ a.rest)
    {p p' : Program} (hp : env.programs[a.home]? = some p)
    (hp' : env'.programs[a.home]? = some p') {name : String}
    (hcallee : SameCallee env env' a.home p p' name) {s : Signature}
    (hs : p.signature? name = some s) (hlength : arguments.length = s.numParams.toNat)
    (memory : Memory) (state : σ) :
    Diverted env env' (env.callName .lowered ⟨a, callers, memory, state⟩ name arguments dest rest)
      (env'.callName .lowered ⟨a', callers', memory, state⟩ name arguments dest rest) := by
  have hvalid := h.valid p (List.mem_of_getElem? hp)
  rw [Environment.callName, Environment.callName]
  simp only [htwin.home, hp, hp']
  -- the name is of the program itself in both, or leads to one function in both
  cases hcallee with
  | @own index hown hown' =>
    simp only [hown, hown']
    obtain ⟨f, hf, hname⟩ := Program.exists_of_functionIndex? hown
    have hsignature := Program.signature?_of_function?
      (Program.function?_eq_some hvalid.names_nodup hf)
    rw [hname, hs] at hsignature
    obtain rfl := Option.some.inj hsignature
    have htype : env.type? (.defined a.home index) = some (funcType f.signature) := by
      rw [Environment.type?, function?_eq_some.mpr ⟨p, hp, hf⟩, Option.map_some]
    exact diverted_call h htwin hwaits hrest htype hlength memory state
  | other hnone hnone' hs₁ hs' ht ht' href =>
    obtain rfl := Option.some.inj (hs.symm.trans hs₁)
    simp only [hnone, hnone', hs, hs']
    exact diverted_callAddress h htwin hwaits hrest href ht ht' hlength memory state

/-- A waiting stub gives back what it is given. -/
theorem stub_returns {n : Nat} {w : Activation (Array Word)} (hw : IsWaitingStub n w dest)
    {results : List Word} (hresults : results.length = n) (memory : Memory) (state : σ) :
    env'.step .lowered
        ⟨{ w with registers := RegisterFile.lowered.assign w.registers dest results.head? },
          callers', memory, state⟩
      = env'.giveBack .lowered
          ⟨{ w with registers := RegisterFile.lowered.assign w.registers dest results.head? },
            callers', memory, state⟩ results := by
  -- the register of the result holds what was given back, if anything was
  have hvalues : RegisterFile.lowered.values?
      (RegisterFile.lowered.assign w.registers dest results.head?) (dest.toList.map .register)
        = some results := by
    have hlength := hresults.trans hw.results
    cases dest with
    | none =>
      obtain rfl := List.length_eq_zero_iff.mp hlength
      rfl
    | some r =>
      obtain ⟨v, rfl⟩ := List.length_eq_one_iff.mp hlength
      have hread : RegisterFile.lowered.read (w.registers.setIfInBounds r.toNat v) r = some v :=
        Array.getElem?_setIfInBounds_self_of_lt (hw.room r rfl)
      show (RegisterFile.lowered.values? _ [.register r]) = some [v]
      rw [RegisterFile.values?_cons]
      show (RegisterFile.lowered.read (w.registers.setIfInBounds r.toNat v) r).bind _ = _
      rw [hread]
      rfl
  rw [Environment.step, hw.rest]
  show State.withValues _ RegisterFile.lowered (dest.toList.map .register) _ = _
  rw [State.withValues, hvalues]

theorem diverted_giveBack (h : Diverts env env') {n : Nat}
    (hwaits : Waits env n b callers callers') {results : List Word} (hresults : results.length = n)
    (a a' : Activation (Array Word)) (memory : Memory) (state : σ) :
    Diverted env env' (env.giveBack .lowered ⟨a, callers, memory, state⟩ results)
      (env'.giveBack .lowered ⟨a', callers', memory, state⟩ results) := by
  induction hwaits generalizing a' with
  | nil =>
    rw [giveBack_eq h.noProbes, giveBack_eq h.noProbes']
    exact .same_halt _
  | caller htwin hrest =>
    rw [giveBack_eq h.noProbes, giveBack_eq h.noProbes']
    obtain ⟨hhome, hfunction, hregisters, hinstructions, hprogram, hmem⟩ := htwin
    refine .go (.refl _) (.mk ⟨hhome, hfunction, ?_, hinstructions, hprogram, hmem⟩ hrest)
    show RegisterFile.lowered.assign _ _ _ = RegisterFile.lowered.assign _ _ _
    rw [hregisters]
  | @stub n w dest callers callers' hw _ ih =>
    rw [giveBack_eq h.noProbes' (s := ⟨a', (w, dest) :: callers', memory, state⟩)]
    exact .of_leads (.step (.of_eq (stub_returns hw hresults memory state))) (ih hresults _)

end

/-! ### Steps and calls from outside -/

/-- A function gives back as many words as its type says. -/
theorem results_of_ret {p : Program} {i : Instruction} (hfits : i.Fits p f)
    (hret : i.opcode = .ret) : i.operands.length = (funcType f.signature).results := by
  have hsignature : (funcType f.signature).results = if f.returnType = .int then 1 else 0 := by
    rw [funcType, FuncType.results, Signature.returnsValue, Function.signature]
    cases f.returnType <;> rfl
  cases hfits with
  | retNothing hf => rw [hsignature, hf]; rfl
  | retValue hf => rw [hsignature, hf]; rfl
  | binary hop =>
    obtain rfl := hret
    simp [Opcode.isBinary] at hop
  | unary hop =>
    obtain rfl := hret
    simp at hop
  | branch hop | branchIf hop | unreachable hop => simp [hop] at hret
  | loadConst | store | call | callIndirect => simp at hret

/-- What one step of the first environment leads to, the second gets to in one step or more. -/
theorem diverted_step (h : Diverts env env') {s t : State (Array Word) σ} (hst : InStep env s t) :
    Diverted env env' (env.step .lowered s) (env'.step .lowered t) := by
  obtain @⟨a, a', b, callers, callers', memory, state, htwin, hwaits⟩ := hst
  obtain ⟨p, hp, hmem⟩ := htwin.program
  obtain ⟨name, hname⟩ := htwin.function
  obtain ⟨p', hp', hcallees⟩ := h.callee _ _ hp
  have hvalid := h.valid p (List.mem_of_getElem? hp)
  rw [Environment.step, Environment.step]
  simp only [htwin.rest]
  cases hrest : a.rest with
  | nil => exact .same_halt _
  | cons i rest =>
    have hi : i ∈ a.function.instructions := htwin.mem i (by simp [hrest])
    have hfits := (hvalid.functions _ hmem).fits hi
    have hsub : ∀ j ∈ rest, j ∈ a.rest := fun j hj => by
      rw [hrest]
      exact List.mem_cons_of_mem i hj
    have halike := alike_rename a.function name
    -- an instruction that stays in the function, a direct call, a call through a cell, or a return
    rcases hfits.control with ⟨hcall, hret⟩ | ⟨dest, callee, arguments, location, s, rfl, hs, hn⟩ |
      ⟨dest, cell, arguments, location, rfl⟩ | hret
    · refine (halike.instruction htwin.registers rfl hname env env' hfits (fun _ _ => trivial) hcall
        hret rest).elim (fun _ _ _ => .same_halt _) fun x y instructions memory hxy hor => ?_
      refine .go (.refl _) (.mk (htwin.go hxy ?_) hwaits)
      rcases hor with rfl | hblock
      · exact .inl hsub
      · exact .inr hblock
    · obtain ⟨-, hcallee⟩ := hcallees _ (List.mem_flatMap.mpr ⟨_, hmem, hi⟩) callee rfl
      refine halike.withValues htwin.registers (fun _ _ => trivial) (.same_halt _)
        fun words hwords => ?_
      exact diverted_callName h htwin hwaits hsub hp hp' hcallee hs
        (hwords.trans hn.symm) memory state
    · exact absurd (hcallees _ (List.mem_flatMap.mpr ⟨_, hmem, hi⟩) cell rfl).1 (by simp)
    · simp only [Environment.instructionStep, hret]
      refine halike.withValues htwin.registers (fun _ _ => trivial) (.same_halt _)
        fun words hwords => ?_
      exact diverted_giveBack h hwaits (hwords.trans (results_of_ret hfits hret)) a a' memory state

theorem matches_diverted (h : Diverts env env') {s t : State (Array Word) σ}
    (hst : InStep env s t) :
    Matches (env.step .lowered) (env'.step .lowered) (InStep env)
      (fun r => r.1 = .trapped .stackOverflow ∧ env.maxDepth < env'.maxDepth)
      (fun r => r.1 = .trapped .stackOverflow ∧ env'.maxDepth < 2 * env.maxDepth + 1) s t := by
  have hdiverted := diverted_step h hst
  generalize hs : env.step .lowered s = next at hdiverted
  cases hdiverted with
  | go hleads hst' => exact .step hs hleads.advances hst'
  | halt hleads =>
    obtain ⟨n, hn⟩ := hleads.ends
    exact .halt hs hn
  | overflowsFirst hdepth => exact .asideFirst hs ⟨rfl, hdepth⟩
  | overflowsSecond hdepth hleads =>
    obtain ⟨n, hn⟩ := hleads.ends
    exact .asideSecond hn ⟨rfl, hdepth⟩

theorem endsFrom_iff_of_leads {x y : Next ρ σ} (h : Leads (env.step file) x y) {r : Halt σ} :
    env.EndsFrom file x r ↔ env.EndsFrom file y r := by
  induction h with
  | refl => exact Iff.rfl
  | @step s y _ ih =>
    rw [← ih]
    constructor
    · rintro ⟨n, hn⟩
      cases hn with
      | halt hs =>
        rw [hs]
        exact rfl
      | next hs hn =>
        rw [hs]
        exact ⟨_, hn⟩
    · intro hends
      cases hs : env.step file s with
      | inl t =>
        rw [hs] at hends
        obtain ⟨n, hn⟩ := hends
        exact ⟨n + 1, .next hs hn⟩
      | inr r' =>
        rw [hs] at hends
        obtain rfl : r' = r := hends
        exact ⟨1, .halt hs⟩

section

variable {next next' : Next (Array Word) σ} {r : Halt σ}

theorem Diverted.endsFrom_first (hd : Diverts env env') (h : Diverted env env' next next')
    (hr : r.1 ≠ .trapped .stackOverflow) (hends : env'.EndsFrom .lowered next' r) :
    ∃ r', env.EndsFrom .lowered next r' ∧
      (r' = r ∨ (r'.1 = .trapped .stackOverflow ∧ env.maxDepth < env'.maxDepth)) := by
  cases h with
  | go hleads hst =>
    obtain ⟨n, hn⟩ := (endsFrom_iff_of_leads hleads).mp hends
    obtain ⟨m, r', hm, hr'⟩ :=
      hn.backward (fun _ _ => matches_diverted hd) hst fun hover => hr hover.1
    exact ⟨r', ⟨m, hm⟩, hr'.symm⟩
  | halt hleads => exact ⟨r, (endsFrom_iff_of_leads hleads).mp hends, .inl rfl⟩
  | overflowsFirst hdepth => exact ⟨_, rfl, .inr ⟨rfl, hdepth⟩⟩
  | overflowsSecond _ hleads =>
    obtain rfl := (endsFrom_iff_of_leads hleads).mp hends
    exact absurd rfl hr

theorem Diverted.endsFrom_second (hd : Diverts env env') (h : Diverted env env' next next')
    (hr : r.1 ≠ .trapped .stackOverflow) (hends : env.EndsFrom .lowered next r) :
    ∃ r', env'.EndsFrom .lowered next' r' ∧
      (r' = r ∨ (r'.1 = .trapped .stackOverflow ∧ env'.maxDepth < 2 * env.maxDepth + 1)) := by
  cases h with
  | go hleads hst =>
    obtain ⟨n, hn⟩ := hends
    obtain ⟨m, r', hm, hr'⟩ :=
      hn.forward (fun _ _ => matches_diverted hd) hst fun hover => hr hover.1
    exact ⟨r', (endsFrom_iff_of_leads hleads).mpr ⟨m, hm⟩, hr'.symm⟩
  | halt hleads => exact ⟨r, (endsFrom_iff_of_leads hleads).mpr hends, .inl rfl⟩
  | overflowsFirst =>
    obtain rfl : overflow _ _ = r := hends
    exact absurd rfl hr
  | overflowsSecond hdepth hleads =>
    exact ⟨_, (endsFrom_iff_of_leads hleads).mpr rfl, .inr ⟨rfl, hdepth⟩⟩

/-- A call that ends among the stubs, and not because the stack is used up, ends alike without them,
unless the stack is used up there, which is smaller then. -/
theorem Diverts.finishes_first (h : Diverts env env') (hf : env.function? home index = some f)
    (hlength : arguments.length = f.numParams.toNat) (hr : r.1 ≠ .trapped .stackOverflow)
    (hfinishes : env'.Finishes .lowered (.defined home index) arguments memory state r) :
    ∃ r', env.Finishes .lowered (.defined home index) arguments memory state r' ∧
      (r' = r ∨ (r'.1 = .trapped .stackOverflow ∧ env.maxDepth < env'.maxDepth)) := by
  obtain ⟨g, hg, -⟩ := (h.function home index f hf).exists_function
  rw [finishes_defined_iff hg] at hfinishes
  simp only [finishes_defined_iff hf]
  exact (diverted_enter h hf hg .nil hlength memory state).endsFrom_first h hr hfinishes

/-- A call that ends without stubs, and not because the stack is used up, ends alike among them,
unless the stack is used up there, which has not room for a stub in each call then. -/
theorem Diverts.finishes_second (h : Diverts env env') (hf : env.function? home index = some f)
    (hlength : arguments.length = f.numParams.toNat) (hr : r.1 ≠ .trapped .stackOverflow)
    (hfinishes : env.Finishes .lowered (.defined home index) arguments memory state r) :
    ∃ r', env'.Finishes .lowered (.defined home index) arguments memory state r' ∧
      (r' = r ∨ (r'.1 = .trapped .stackOverflow ∧ env'.maxDepth < 2 * env.maxDepth + 1)) := by
  obtain ⟨g, hg, -⟩ := (h.function home index f hf).exists_function
  rw [finishes_defined_iff hf] at hfinishes
  simp only [finishes_defined_iff hg]
  exact (diverted_enter h hf hg .nil hlength memory state).endsFrom_second h hr hfinishes

end

end MutationAnalysis.Interpreter
