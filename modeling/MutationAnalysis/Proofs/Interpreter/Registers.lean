/-
Registers and locals.

Compiled code keeps registers in locals and the number of the block to run in one more of them.
While the registers of every function fit in 32 bits, this one is none of the registers, so the
interpreter does the same whether it keeps registers plainly or as compiled code does (`Holds`).
With that, compiled code has the meaning of the programs that it comes from.

* `alike_plain_lowered`: both ways to keep registers hold the same;
* `tracks_step`: related states stay related by a step, or both end alike;
* `Realizes.finishes_iff_plain`: a call ends in an image as the programs say.
-/
import MutationAnalysis.Proofs.Interpreter.Lockstep
import MutationAnalysis.Proofs.Interpreter.Simulation

namespace MutationAnalysis.Interpreter

open Wasm Lowering

variable {η σ : Type} {env : Environment η σ}

/-! ### One function -/

/-- The locals of a function hold its registers. -/
structure Holds (f : Function) (x : Register → Word) (y : Array Word) : Prop where
  size : y.size = f.registersNeeded + 1
  get : ∀ r : Register, r.toNat < f.registersNeeded → y[r.toNat]? = some (x r)

section

variable {f : Function} {x : Register → Word} {y : Array Word}

/-- Once the local for it is set, dispatching goes to the block of the number. -/
theorem dispatch_eq_some {target : Word} (hget : y[counterLocal f]? = some target)
    (htarget : target.toNat < f.blocks.length) : dispatch f y = some target.toNat := by
  rw [dispatch, hget, Option.map_some, List.getD_eq_getElem?_getD, List.getElem?_range htarget]
  rfl

theorem Holds.write (h : Holds f x y) {r : Register} (w : Word) :
    Holds f (Function.update x r w) (y.setIfInBounds r.toNat w) := by
  refine ⟨by rw [Array.size_setIfInBounds, h.size], fun q hq => ?_⟩
  by_cases hqr : q = r
  · subst hqr
    rw [Function.update_self, Array.getElem?_setIfInBounds_self_of_lt (by rw [h.size]; omega)]
  · have hne : r.toNat ≠ q.toNat := fun heq => hqr (UInt8.toNat_inj.mp heq).symm
    rw [Function.update_of_ne hqr, Array.getElem?_setIfInBounds_ne hne]
    exact h.get q hq

/-- Setting the block to run leaves the registers alone. -/
theorem Holds.setCounter (h : Holds f x y) (hbound : f.registersNeeded < 2 ^ 32 - 1) (w : Word) :
    Holds f x (y.setIfInBounds (counterLocal f) w) := by
  refine ⟨by rw [Array.size_setIfInBounds, h.size], fun q hq => ?_⟩
  rw [Array.getElem?_setIfInBounds_ne (by rw [counterLocal_eq hbound]; omega)]
  exact h.get q hq

theorem alike_plain_lowered (hbound : f.registersNeeded < 2 ^ 32 - 1) :
    Alike .plain .lowered f f (fun r => r.toNat < f.registersNeeded) (Holds f) where
  blocks := rfl
  read := fun h hr => h.get _ hr
  write := fun w h _ => h.write w
  goTo := fun {x y target} h htarget => by
    have hcounter : counterLocal f < y.size := by
      rw [counterLocal_eq hbound, h.size]
      omega
    have hdispatch : dispatch f (y.setIfInBounds (counterLocal f) target) = some target.toNat :=
      dispatch_eq_some (Array.getElem?_setIfInBounds_self_of_lt hcounter) htarget
    have hlowered : RegisterFile.lowered.goTo f y target
        = some (target.toNat, y.setIfInBounds (counterLocal f) target) := by
      show (dispatch f _).map _ = _
      rw [hdispatch]
      rfl
    rw [hlowered]
    exact .some ⟨rfl, h.setCounter hbound target⟩

theorem getElem?_start (f : Function) (arguments : List Word) (i : Nat) :
    (RegisterFile.lowered.start f arguments)[i]?
      = if i < arguments.length + extraLocals f then some (arguments.getD i 0) else none := by
  show (arguments.toArray ++ Array.replicate (extraLocals f) 0)[i]? = _
  rw [Array.getElem?_append, List.getD_eq_getElem?_getD, List.size_toArray]
  by_cases hi : i < arguments.length
  · rw [if_pos hi, if_pos (by omega), List.getElem?_toArray, List.getElem?_eq_getElem hi]
    rfl
  · rw [if_neg hi, List.getElem?_eq_none (by omega), Array.getElem?_replicate]
    by_cases hlt : i - arguments.length < extraLocals f
    · rw [if_pos hlt, if_pos (by omega)]
      rfl
    · rw [if_neg hlt, if_neg (by omega)]

variable (hbound : f.registersNeeded < 2 ^ 32 - 1) {arguments : List Word}
  (hlength : arguments.length = f.numParams.toNat)

include hbound hlength

/-- When a function starts, its locals are its parameters and zeros. -/
theorem holds_start : Holds f (RegisterFile.plain.start f arguments)
    (RegisterFile.lowered.start f arguments) := by
  have hsum := numParams_add_extraLocals hbound
  refine ⟨?_, fun r hr => ?_⟩
  · show (arguments.toArray ++ Array.replicate (extraLocals f) 0).size = _
    rw [Array.size_append, Array.size_replicate, List.size_toArray]
    omega
  · rw [getElem?_start, if_pos (by omega)]
    rfl

/-- Functions start in their first block. -/
theorem first_lowered (hblocks : f.blocks ≠ []) :
    RegisterFile.lowered.first f (RegisterFile.lowered.start f arguments) = some 0 := by
  have hsum := numParams_add_extraLocals hbound
  have hparams : f.numParams.toNat ≤ f.registersNeeded := by
    rw [Function.registersNeeded]
    omega
  have hget : (RegisterFile.lowered.start f arguments)[counterLocal f]? = some 0 := by
    rw [getElem?_start, counterLocal_eq hbound, if_pos (by omega),
      List.getD_eq_getElem?_getD, List.getElem?_eq_none (by omega)]
    rfl
  have hfirst : ∀ y, RegisterFile.lowered.first f y = dispatch f y := fun _ => rfl
  rw [hfirst, dispatch_eq_some hget (List.length_pos_iff.mpr hblocks)]
  rfl

end

/-! ### All functions that run -/

/-- The programs of an environment are valid, and the registers of
their functions fit in 32 bits. -/
def Environment.IsBounded (env : Environment η σ) : Prop :=
  ∀ p ∈ env.programs, p.IsValid ∧ ∀ f ∈ p.functions, f.registersNeeded < 2 ^ 32 - 1

/-- The same function runs with the same registers. -/
structure Tracks (env : Environment η σ) (a : Activation (Register → Word))
    (b : Activation (Array Word)) : Prop where
  home : b.home = a.home
  index : b.index = a.index
  function : b.function = a.function
  rest : b.rest = a.rest
  program : ∃ p, env.programs[a.home]? = some p ∧ a.function ∈ p.functions ∧
    ∀ i ∈ a.rest, i.Fits p a.function
  mem : ∀ i ∈ a.rest, i ∈ a.function.instructions
  registers : Holds a.function a.registers b.registers

/-- A caller waits in both, and the register that takes the result is one of its function. -/
structure TracksCaller (env : Environment η σ)
    (x : Activation (Register → Word) × Option Register)
    (y : Activation (Array Word) × Option Register) : Prop where
  tracks : Tracks env x.1 y.1
  dest : y.2 = x.2
  used : ∀ r, x.2 = some r → r.toNat < x.1.function.registersNeeded

inductive StateTracks (env : Environment η σ) :
    State (Register → Word) σ → State (Array Word) σ → Prop
  | mk {a : Activation (Register → Word)} {b : Activation (Array Word)}
      {callers : List (Activation (Register → Word) × Option Register)}
      {callers' : List (Activation (Array Word) × Option Register)} {memory : Memory} {state : σ}
      (hactive : Tracks env a b) (hcallers : List.Forall₂ (TracksCaller env) callers callers') :
      StateTracks env ⟨a, callers, memory, state⟩ ⟨b, callers', memory, state⟩

/-- Both go on to related states, or both end alike. -/
inductive NextTracks (env : Environment η σ) :
    Next (Register → Word) σ → Next (Array Word) σ → Prop
  | go {s : State (Register → Word) σ} {t : State (Array Word) σ} (h : StateTracks env s t) :
      NextTracks env (.inl s) (.inl t)
  | halt (r : Halt σ) : NextTracks env (.inr r) (.inr r)

theorem lt_registersNeeded {f : Function} {i : Instruction} (hi : i ∈ f.instructions)
    {r : Register} (hr : r ∈ i.registers) : r.toNat < f.registersNeeded :=
  Nat.lt_of_lt_of_le (Function.lt_usedRegisters hi hr) (Nat.le_max_left _ _)

section

variable {a : Activation (Register → Word)} {b : Activation (Array Word)}
  {callers : List (Activation (Register → Word) × Option Register)}
  {callers' : List (Activation (Array Word) × Option Register)} {memory : Memory} {state : σ}

theorem Tracks.alike (hb : env.IsBounded) (h : Tracks env a b) :
    Alike .plain .lowered a.function b.function
      (fun r => r.toNat < a.function.registersNeeded) (Holds a.function) := by
  obtain ⟨p, hp, hf, -⟩ := h.program
  rw [h.function]
  exact alike_plain_lowered ((hb p (List.mem_of_getElem? hp)).2 _ hf)

/-- What is left of the block may change for a part of it or another block. -/
theorem Tracks.go (hb : env.IsBounded) (h : Tracks env a b) {x : Register → Word} {y : Array Word}
    (hxy : Holds a.function x y) {rest : List Instruction}
    (hrest : (∀ i ∈ rest, i ∈ a.rest) ∨ ∃ block ∈ a.function.blocks, rest = block.instructions) :
    Tracks env { a with registers := x, rest } { b with registers := y, rest } := by
  obtain ⟨p, hp, hf, hfits⟩ := h.program
  refine ⟨h.home, h.index, h.function, rfl, ⟨p, hp, hf, ?_⟩, ?_, hxy⟩
  · rcases hrest with hrest | ⟨block, hblock, rfl⟩
    · exact fun i hi => hfits i (hrest i hi)
    · exact (((hb p (List.mem_of_getElem? hp)).1.functions _ hf).blocks _ hblock).fits
  · rcases hrest with hrest | ⟨block, hblock, rfl⟩
    · exact fun i hi => h.mem i (hrest i hi)
    · exact fun i hi => List.mem_flatMap.mpr ⟨block, hblock, hi⟩

/-- The caller goes on with a result. -/
theorem Tracks.take (hb : env.IsBounded) (h : Tracks env a b) {dest : Option Register}
    (hused : ∀ r, dest = some r → r.toNat < a.function.registersNeeded) (result : Option Word)
    {rest : List Instruction} (hrest : ∀ i ∈ rest, i ∈ a.rest) :
    Tracks env { a with registers := RegisterFile.plain.assign a.registers dest result, rest }
      { b with registers := RegisterFile.lowered.assign b.registers dest result, rest } :=
  h.go hb ((h.alike hb).assign h.registers hused result) (.inl hrest)

/-- A function that starts with as many arguments as it has parameters. -/
theorem tracks_start (hb : env.IsBounded) {home index : Nat} {f : Function}
    (hf : env.function? home index = some f) {arguments : List Word}
    (hlength : arguments.length = f.numParams.toNat)
    (hcallers : List.Forall₂ (TracksCaller env) callers callers') :
    NextTracks env (env.start .plain home index f arguments callers memory state)
      (env.start .lowered home index f arguments callers' memory state) := by
  obtain ⟨p, hp, hfunction⟩ := function?_eq_some.mp hf
  have hmem := List.mem_of_getElem? hfunction
  obtain ⟨hvalid, hbound⟩ := hb p (List.mem_of_getElem? hp)
  have hblocks := (hvalid.functions f hmem).blocks_ne_nil
  rw [Environment.start, Environment.start]
  cases env.runProbe Probes.enter home index memory state with
  | inr r => exact .halt r
  | inl next =>
    obtain ⟨memory', state'⟩ := next
    have hplain : RegisterFile.plain.first f (RegisterFile.plain.start f arguments) = some 0 := rfl
    simp only [hplain, first_lowered (hbound f hmem) hlength hblocks, Option.bind_some]
    cases hblock : f.blocks[0]? with
    | none => exact .halt _
    | some block =>
      have hblock := List.mem_of_getElem? hblock
      exact .go
        (.mk ⟨rfl, rfl, rfl, rfl, ⟨p, hp, hmem, ((hvalid.functions f hmem).blocks _ hblock).fits⟩,
        fun i hi => List.mem_flatMap.mpr ⟨block, hblock, hi⟩, holds_start (hbound f hmem) hlength⟩
        hcallers)

theorem Tracks.call (hb : env.IsBounded) (h : Tracks env a b)
    (hcallers : List.Forall₂ (TracksCaller env) callers callers') {ref : FuncRef η}
    {type : FuncType} (htype : env.type? ref = some type) {arguments : List Word}
    (hlength : arguments.length = type.params) {dest : Option Register}
    (hused : ∀ r, dest = some r → r.toNat < a.function.registersNeeded)
    {rest : List Instruction} (hrest : ∀ i ∈ rest, i ∈ a.rest) :
    NextTracks env
      (env.call .plain ⟨a, callers, memory, state⟩ ref arguments dest rest)
      (env.call .lowered ⟨b, callers', memory, state⟩ ref arguments dest rest) := by
  cases ref with
  | host name =>
    rw [Environment.call, Environment.call]
    dsimp only
    cases env.host.call name arguments memory state with
    | returned results memory' state' => exact .go (.mk (h.take hb hused _ hrest) hcallers)
    | raised signal memory' state' => exact .halt _
  | defined home index =>
    obtain ⟨f, hf, rfl⟩ := Option.map_eq_some_iff.mp htype
    rw [Environment.call, Environment.call]
    simp only [hf, hcallers.length_eq]
    split
    · refine tracks_start hb hf hlength (.cons ⟨?_, rfl, hused⟩ hcallers)
      exact h.go hb h.registers (.inl hrest)
    · exact .halt _

theorem Tracks.callAddress (hb : env.IsBounded) (h : Tracks env a b)
    (hcallers : List.Forall₂ (TracksCaller env) callers callers') {type : FuncType}
    (address : Word) {arguments : List Word} (hlength : arguments.length = type.params)
    {dest : Option Register}
    (hused : ∀ r, dest = some r → r.toNat < a.function.registersNeeded)
    {rest : List Instruction} (hrest : ∀ i ∈ rest, i ∈ a.rest) :
    NextTracks env
      (env.callAddress .plain ⟨a, callers, memory, state⟩ type address arguments dest rest)
      (env.callAddress .lowered ⟨b, callers', memory, state⟩ type address arguments dest rest) := by
  rw [Environment.callAddress, Environment.callAddress]
  cases env.table[address.toNat]? with
  | none => exact .halt _
  | some entry =>
    cases entry with
    | none => exact .halt _
    | some ref =>
      dsimp only
      split
      · rename_i htype
        exact h.call hb hcallers htype hlength hused hrest
      · exact .halt _

theorem Tracks.callName (hb : env.IsBounded) (h : Tracks env a b)
    (hcallers : List.Forall₂ (TracksCaller env) callers callers') {p : Program}
    (hp : env.programs[a.home]? = some p) {callee : String} {signature : Signature}
    (hs : p.signature? callee = some signature) {arguments : List Word}
    (hlength : arguments.length = signature.numParams.toNat) {dest : Option Register}
    (hused : ∀ r, dest = some r → r.toNat < a.function.registersNeeded)
    {rest : List Instruction} (hrest : ∀ i ∈ rest, i ∈ a.rest) :
    NextTracks env
      (env.callName .plain ⟨a, callers, memory, state⟩ callee arguments dest rest)
      (env.callName .lowered ⟨b, callers', memory, state⟩ callee arguments dest rest) := by
  have hvalid := (hb p (List.mem_of_getElem? hp)).1
  rw [Environment.callName, Environment.callName]
  simp only [h.home, hp]
  -- the program defines the function, or it is called at an address
  cases hf : p.function? callee with
  | some f =>
    obtain ⟨i, hi, rfl⟩ := Program.exists_index_of_function? hf
    obtain rfl : f.signature = signature :=
      Option.some.inj ((Program.signature?_of_function? hf).symm.trans hs)
    simp only [Program.functionIndex?_eq_some hvalid.names_nodup hi]
    have htype : env.type? (.defined a.home i) = some (funcType f.signature) := by
      rw [Environment.type?, function?_eq_some.mpr ⟨p, hp, hi⟩, Option.map_some]
    exact h.call hb hcallers htype hlength hused hrest
  | none =>
    simp only [Program.functionIndex?_eq_none.mpr hf, hs]
    exact h.callAddress hb hcallers _ hlength hused hrest

theorem giveBack_tracks (hb : env.IsBounded) (h : Tracks env a b)
    (hcallers : List.Forall₂ (TracksCaller env) callers callers') (results : List Word) :
    NextTracks env
      (env.giveBack .plain ⟨a, callers, memory, state⟩ results)
      (env.giveBack .lowered ⟨b, callers', memory, state⟩ results) := by
  rw [Environment.giveBack, Environment.giveBack]
  simp only [h.home, h.index]
  cases env.runProbe Probes.leave a.home a.index memory state with
  | inr r => exact .halt r
  | inl next =>
    obtain ⟨memory', state'⟩ := next
    cases hcallers with
    | nil => exact .halt _
    | @cons x y _ _ hxy hrest =>
      obtain ⟨a', dest⟩ := x
      obtain ⟨⟨home, index, function, registers, rest⟩, dest'⟩ := y
      obtain ⟨htracks, rfl, hused⟩ := hxy
      obtain rfl : rest = a'.rest := htracks.rest
      exact .go (.mk (htracks.take hb hused results.head? fun i hi => hi) hrest)

/-- Related states stay related by a step, or both end alike. -/
theorem tracks_step (hb : env.IsBounded) {s : State (Register → Word) σ} {t : State (Array Word) σ}
    (hst : StateTracks env s t) : NextTracks env (env.step .plain s) (env.step .lowered t) := by
  obtain @⟨a, b, callers, callers', memory, state, h, hcallers⟩ := hst
  rw [Environment.step, Environment.step]
  simp only [h.rest]
  cases hrest : a.rest with
  | nil => exact .halt _
  | cons i rest =>
    obtain ⟨p, hp, hf, hfits⟩ := h.program
    have hi := hfits i (by simp [hrest])
    have hused : ∀ r ∈ i.registers, r.toNat < a.function.registersNeeded := fun r hr =>
      lt_registersNeeded (h.mem i (by simp [hrest])) hr
    have hoperands : ∀ r, .register r ∈ i.operands → r.toNat < a.function.registersNeeded :=
      fun r hr => hused r (List.mem_append_right _ (List.mem_filterMap.mpr ⟨_, hr, rfl⟩))
    have hdest : ∀ r, i.dest = some r → r.toNat < a.function.registersNeeded :=
      fun r hr => hused r (by simp [Instruction.registers, hr])
    have hsub : ∀ j ∈ rest, j ∈ a.rest := fun j hj => by
      rw [hrest]
      exact List.mem_cons_of_mem i hj
    have halike := h.alike hb
    -- calls and returns change the callers; all other instructions work on registers alone
    rcases hi.control with ⟨hcall, hret⟩ | ⟨dest, callee, arguments, location, s, rfl, hs, hn⟩ |
      ⟨dest, cell, arguments, location, rfl⟩ | hret
    · refine (halike.instruction h.registers rfl rfl env env hi hused hcall hret rest).elim
        (fun _ _ _ => .halt _) fun x y instructions memory hxy hor =>
          .go (.mk (h.go hb hxy ?_) hcallers)
      rcases hor with rfl | hblock
      · exact .inl hsub
      · exact .inr hblock
    · refine halike.withValues h.registers (fun r hr => hoperands r (List.mem_cons_of_mem _ hr))
        (.halt _) fun words hwords => ?_
      exact h.callName hb hcallers hp hs (hwords.trans hn.symm) hdest hsub
    · refine halike.withValues h.registers (fun r hr => hoperands r (List.mem_cons_of_mem _ hr))
        (.halt _) fun words hwords => ?_
      rw [h.home]
      exact h.callAddress hb hcallers _ rfl hdest hsub
    · simp only [Environment.instructionStep, hret]
      exact halike.withValues h.registers hoperands (.halt _) fun words _ =>
        giveBack_tracks hb h hcallers words

theorem matches_tracks (hb : env.IsBounded) {s : State (Register → Word) σ}
    {t : State (Array Word) σ} (hst : StateTracks env s t) :
    Matches (env.step .plain) (env.step .lowered) (StateTracks env) (fun _ => False)
      (fun _ => False) s t := by
  have hnext := tracks_step hb hst
  cases hs : env.step .plain s with
  | inl s' =>
    rw [hs] at hnext
    cases ht : env.step .lowered t with
    | inl t' =>
      rw [ht] at hnext
      cases hnext with
      | go hst' => exact .step hs (.single ht) hst'
    | inr r =>
      rw [ht] at hnext
      cases hnext
  | inr r =>
    rw [hs] at hnext
    cases ht : env.step .lowered t with
    | inl t' =>
      rw [ht] at hnext
      cases hnext
    | inr r' =>
      rw [ht] at hnext
      cases hnext with
      | halt => exact .halt hs (.halt ht)

theorem NextTracks.endsFrom_iff (hb : env.IsBounded) {next : Next (Register → Word) σ}
    {next' : Next (Array Word) σ} (h : NextTracks env next next') {r : Halt σ} :
    env.EndsFrom .plain next r ↔ env.EndsFrom .lowered next' r := by
  cases h with
  | go hst => exact exists_ends_iff (fun _ _ => matches_tracks hb) hst
  | halt => exact Iff.rfl

/-- With as many arguments as a function has parameters, it does not matter to a
call how registers are kept. -/
theorem finishes_plain_iff (hb : env.IsBounded) {home index : Nat} {f : Function}
    (hf : env.function? home index = some f) {arguments : List Word}
    (hlength : arguments.length = f.numParams.toNat) (memory : Memory) (state : σ) (r : Halt σ) :
    env.Finishes .plain (.defined home index) arguments memory state r ↔
      env.Finishes .lowered (.defined home index) arguments memory state r := by
  simp only [Environment.Finishes, hf]
  split
  · exact (tracks_start hb hf hlength .nil).endsFrom_iff hb
  · exact Iff.rfl

end

/-- `countdown` on a host that writes down what is printed. -/
def countdownEnvironment : Environment Unit (List Word) where
  host := ⟨fun _ => ⟨1, false⟩, fun _ arguments memory state =>
    .returned [] memory (state ++ arguments)⟩
  programs := [countdown]
  table := #[some (.host ())]
  address _ _ := 0
  cell _ _ := 0
  probes _ := none
  maxDepth := 2

/-- A call of a function ends in an image that runs the compiled code of programs exactly as it ends
where the programs are interpreted block by block. -/
theorem Realizes.finishes_iff_plain {l : Linkage η σ} (h : Realizes l env)
    (hvalid : ∀ p ∈ env.programs, p.validate = .ok ())
    (hbound : ∀ p ∈ env.programs, ∀ f ∈ p.functions, f.registersNeeded < 2 ^ 32 - 1)
    (hcells : ∀ p ∈ env.programs, p.SeparatesCells) (htyped : env.host.IsTyped)
    (hprobes : env.HasProbes) {home index : Nat} {f : Function}
    (hf : env.function? home index = some f) {arguments : List Word}
    (hlength : arguments.length = f.numParams.toNat) (memory : Memory) (state : σ) (r : Halt σ) :
    l.Finishes (.defined home index) arguments memory state r ↔
      env.Finishes .plain (.defined home index) arguments memory state r := by
  have hb : env.IsBounded := fun p hp => ⟨Program.isValid_of_validate (hvalid p hp), hbound p hp⟩
  have hag : Agrees l env := h.agrees (fun p hp => ⟨(hb p hp).1, hcells p hp⟩) htyped hprobes
  rw [Interpreter.finishes_iff hag, finishes_plain_iff hb hf hlength]

theorem countdown_finishes :
    countdownEnvironment.image.Finishes (.defined 0 0) [1] (.blank 0) []
      (.returned [0], .blank 0, [0]) := by
  have hvalid : ∀ p ∈ countdownEnvironment.programs, p.validate = .ok () := by
    intro p hp
    obtain rfl := List.mem_singleton.mp hp
    rfl
  refine (Realizes.finishes_iff_plain
    (realizes_image fun p hp => Program.isValid_of_validate (hvalid p hp)) hvalid ?_ ?_ ?_ ?_
    (f := countdown.functions[0]) rfl rfl _ _ _).mpr ?_
  · decide
  · intro p hp
    obtain rfl := List.mem_singleton.mp hp
    rw [Program.SeparatesCells]
    decide
  · rintro name arguments memory state results memory' state' hlength hcall
    cases hcall
    rfl
  · intro home probes h
    cases h
  · exact ⟨7, .next rfl (.next rfl (.next rfl (.next rfl (.next rfl (.next rfl (.halt rfl))))))⟩

end MutationAnalysis.Interpreter
