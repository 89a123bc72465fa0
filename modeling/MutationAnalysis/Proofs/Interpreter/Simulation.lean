/-
Compiled code does what the interpreter does.

The interpreter, with registers kept as compiled code keeps them, and the machine go step for
step. They are related (`Related`) at every boundary of instructions: the machine stands in
the code of what is left of the block, inside the labels of the blocks that follow it and of
the loop, with an empty operand stack, and so do the frames of the callers once they have
taken the results they wait for.

* `reaches_block`: from the loop the machine gets to the block whose number the local holds;
* `follows_step`: what one step of the interpreter leads to, the
  machine gets to in one step or more;
* `finishes_iff`: calls end alike.
-/
import MutationAnalysis.Proofs.Interpreter.Realization

namespace MutationAnalysis.Interpreter

open Wasm Lowering

variable {η σ : Type} {l : Linkage η σ} {env : Environment η σ}

/-! ### The loop around the blocks -/

/-- What follows the loop of a body, which never ends. -/
def afterLoop : Code := .op .unreachable .done

/-- What is inside the loop of a body. -/
def loopBody (f : Function) (codes : List Code) : Code :=
  nest (dispatcher (counterLocal f) f.blocks.length) codes

def blockLabel (c : Code) : Label := ⟨c, c, []⟩

def loopLabel (inner : Code) : Label := ⟨.loop inner afterLoop, afterLoop, []⟩

/-- The labels around the code of a block. -/
def labelsIn (inner : Code) (codes : List Code) (k : Nat) : List Label :=
  (codes.drop (k + 1)).map blockLabel ++ [loopLabel inner]

section

variable (c : Place) {codes : List Code} {locals : Array Word} {memory : Memory} {state : σ}
  {f : Function} {k : Nat}

/-- Entering nested blocks leaves the label of each. -/
theorem reaches_nest (inner : Code) :
    Reaches (Machine.stepper l) (c.at (nest inner codes) [] locals memory state)
      ({ c with labels := codes.map blockLabel ++ c.labels }.at inner [] locals memory state) := by
  induction codes generalizing inner with
  | nil => exact .refl _
  | cons x xs ih => exact (ih (.block inner x)).trans (.head (Machine.step_block l _) (.refl _))

theorem dispatch_lt (hblocks : f.blocks ≠ []) (h : dispatch f locals = some k) :
    k < f.blocks.length := by
  have hlength : f.blocks.length ≠ 0 := by simpa using hblocks
  rw [dispatch, Option.map_eq_some_iff] at h
  obtain ⟨w, -, rfl⟩ := h
  rw [List.getD_eq_getElem?_getD, lastBlock, if_neg hlength]
  by_cases hw : w.toNat < f.blocks.length
  · rw [List.getElem?_range hw, Option.getD_some]
    exact hw
  · rw [List.getElem?_eq_none (by simpa using hw), Option.getD_none]
    omega

theorem reaches_dispatcher :
    Reaches (Machine.stepper l)
      (c.at (.loop (loopBody f codes) afterLoop) [] locals memory state)
      ({ c with labels := codes.map blockLabel ++ loopLabel (loopBody f codes) :: c.labels }.at
        (dispatcher (counterLocal f) f.blocks.length) [] locals memory state) :=
  .head (Machine.step_loop l c) (reaches_nest _ _)

/-- From the loop of a body the machine gets to the block whose number the local holds. -/
theorem reaches_block (hc : c.labels = []) (hk : dispatch f locals = some k) {code : Code}
    (hcode : codes[k]? = some code) :
    Reaches (Machine.stepper l)
      (c.at (.loop (loopBody f codes) afterLoop) [] locals memory state)
      ({ c with labels := labelsIn (loopBody f codes) codes k }.at code [] locals
        memory state) := by
  obtain ⟨w, hw, hget⟩ := Option.map_eq_some_iff.mp hk
  refine (reaches_dispatcher c).trans (.head (Machine.step_localGet_some l _ hw) ?_)
  obtain ⟨hlt, rfl⟩ := List.getElem?_eq_some_iff.mp hcode
  have hdrop : (codes.map blockLabel ++ loopLabel (loopBody f codes) :: c.labels).drop
      ((List.range f.blocks.length).getD w.toNat (lastBlock f.blocks.length))
        = blockLabel codes[k] :: labelsIn (loopBody f codes) codes k := by
    rw [hget, hc, List.drop_append_of_le_length (by rw [List.length_map]; omega), ← List.map_drop,
      List.drop_eq_getElem_cons hlt]
    rfl
  exact .head (Machine.step_brTable_to l _ hdrop) (.refl _)

theorem ends_of_dispatch_none (hk : dispatch f locals = none) :
    ∃ n, Ends (Machine.stepper l) n
      (c.at (.loop (loopBody f codes) afterLoop) [] locals memory state)
      (.stuck, memory, state) := by
  have hw : locals[counterLocal f]? = none := Option.map_eq_none_iff.mp hk
  obtain ⟨n, -, hn⟩ := (reaches_dispatcher (l := l) c).ends
    (Ends.halt (Machine.step_localGet_none l _ hw))
  exact ⟨n, hn⟩

end

/-! ### Related states -/

/-- What takes so many results into a destination. -/
def takeOps (n : Nat) (dest : Option Register) : List Op :=
  if n = 0 then [] else [resultOp dest]

theorem givenOps_eq_takeOps (s : Signature) (dest : Option Register) :
    givenOps s dest = takeOps (funcType s).results dest := by
  rw [givenOps, takeOps, funcType, FuncType.results]
  cases s.returnsValue <;> rfl

/-- How many words a function that runs gives back. -/
def Activation.results (a : Activation (Array Word)) : Nat :=
  (funcType a.function.signature).results

theorem FuncType.results_le (t : FuncType) : t.results ≤ 1 := by
  rw [FuncType.results]
  split <;> omega

theorem reverse_of_length_le {words : List Word} (h : words.length ≤ 1) :
    words.reverse = words := by
  match words, h with
  | [], _ | [_], _ => rfl
  | _ :: _ :: _, h => simp at h

/-- Code stands for what is left of a block of a function that runs, inside the labels given. -/
structure Stands (l : Linkage η σ) (env : Environment η σ) (p : Program) (layout : Layout)
    (codes : List Code) (k : Nat) (a : Activation (Array Word)) (labels : List Label)
    (code : Code) : Prop where
  provides : Provides l env a.home p layout
  function : p.functions[a.index]? = some a.function
  emits : BlocksEmit layout a.index (counterLocal a.function) a.function.blocks codes
  index : k < a.function.blocks.length
  tail : IsBlockTail p a.function a.rest
  mem : ∀ i ∈ a.rest, i ∈ p.instructions
  labels : labels = labelsIn (loopBody a.function codes) codes k
  code : instructionsCode layout
    ⟨a.index, counterLocal a.function, a.function.blocks.length - 1 - k⟩ a.rest = .ok code

/-- The frame of a function that runs, which does some operations
before what is left of its block. -/
def FrameOf (l : Linkage η σ) (env : Environment η σ) (ops : List Op)
    (a : Activation (Array Word)) (frame : Frame) : Prop :=
  ∃ p layout codes k code, Stands l env p layout codes k a frame.labels code ∧
    frame = ⟨Code.ofOps ops ++ code, frame.labels, [], a.registers, a.home, a.results⟩

/-- The frames of callers; the last of them waits for so many words. -/
inductive CallersOf (l : Linkage η σ) (env : Environment η σ) :
    Nat → List (Activation (Array Word) × Option Register) → List Frame → Prop
  | nil {n : Nat} : CallersOf l env n [] []
  | cons {n : Nat} {a : Activation (Array Word)} {dest : Option Register} {frame : Frame}
      {callers : List (Activation (Array Word) × Option Register)} {frames : List Frame}
      (hframe : FrameOf l env (takeOps n dest) a frame)
      (hrest : CallersOf l env a.results callers frames) :
      CallersOf l env n ((a, dest) :: callers) (frame :: frames)

/-- The place of a function that runs on behalf of callers. -/
structure PlaceOf (l : Linkage η σ) (env : Environment η σ) (a : Activation (Array Word))
    (callers : List (Activation (Array Word) × Option Register)) (c : Place) : Prop where
  home : c.home = a.home
  results : c.results = a.results
  frames : CallersOf l env a.results callers c.callers
  depth : c.depth = callers.length

/-- The machine stands where the interpreter does. -/
inductive Related (l : Linkage η σ) (env : Environment η σ) :
    State (Array Word) σ → Machine σ → Prop
  | mk {a : Activation (Array Word)} {callers : List (Activation (Array Word) × Option Register)}
      {memory : Memory} {state : σ} {c : Place} {p : Program} {layout : Layout}
      {codes : List Code} {k : Nat} {code : Code}
      (hstands : Stands l env p layout codes k a c.labels code)
      (hplace : PlaceOf l env a callers c) :
      Related l env ⟨a, callers, memory, state⟩ (c.at code [] a.registers memory state)

/-- The machine gets to what the interpreter gets to. -/
def Arrives (l : Linkage η σ) (env : Environment η σ) (next : Next (Array Word) σ)
    (m : Machine σ) : Prop :=
  match next with
  | .inl s => ∃ m', Reaches (Machine.stepper l) m m' ∧ Related l env s m'
  | .inr r => ∃ n, Ends (Machine.stepper l) n m r

/-- The machine gets there, and takes a step for it. -/
def Follows (l : Linkage η σ) (env : Environment η σ) (next : Next (Array Word) σ)
    (m : Machine σ) : Prop :=
  match next with
  | .inl s => ∃ m', Advances (Machine.stepper l) m m' ∧ Related l env s m'
  | .inr r => ∃ n, Ends (Machine.stepper l) n m r

section

variable {next : Next (Array Word) σ} {m m' : Machine σ} {r : Halt σ}

theorem Follows.arrives (h : Follows l env next m) : Arrives l env next m := by
  cases next with
  | inl s =>
    obtain ⟨m', hadv, hrel⟩ := h
    exact ⟨m', hadv.reaches, hrel⟩
  | inr r => exact h

theorem Arrives.of_reaches (hm : Reaches (Machine.stepper l) m m') (h : Arrives l env next m') :
    Arrives l env next m := by
  cases next with
  | inl s =>
    obtain ⟨m'', hreach, hrel⟩ := h
    exact ⟨m'', hm.trans hreach, hrel⟩
  | inr r =>
    obtain ⟨n, hn⟩ := h
    obtain ⟨n', -, hn'⟩ := hm.ends hn
    exact ⟨n', hn'⟩

theorem Follows.of_reaches (hm : Reaches (Machine.stepper l) m m') (h : Follows l env next m') :
    Follows l env next m := by
  cases next with
  | inl s =>
    obtain ⟨m'', hadv, hrel⟩ := h
    exact ⟨m'', hm.trans_advances hadv, hrel⟩
  | inr r =>
    obtain ⟨n, hn⟩ := h
    obtain ⟨n', -, hn'⟩ := hm.ends hn
    exact ⟨n', hn'⟩

theorem Follows.of_step (hm : Machine.stepper l m = .inl m') (h : Arrives l env next m') :
    Follows l env next m := by
  cases next with
  | inl s =>
    obtain ⟨m'', hreach, hrel⟩ := h
    exact ⟨m'', .head hm hreach, hrel⟩
  | inr r =>
    obtain ⟨n, hn⟩ := h
    exact ⟨n + 1, .next hm hn⟩

theorem Follows.of_halt (hm : Machine.stepper l m = .inr r) : Follows l env (.inr r) m :=
  ⟨1, .halt hm⟩

end

/-! ### Values and results -/

section

variable (c : Place) {locals : Array Word} {memory : Memory} {state : σ} {above : List Word}
  {rest : Code}

/-- The operation for a value puts its word on the stack. -/
theorem step_valueOp {a : Operand} {w : Word}
    (h : RegisterFile.lowered.value? locals a = some w) :
    Machine.stepper l (c.at (.op (valueOp a) rest) above locals memory state)
      = .inl (c.at rest (w :: above) locals memory state) := by
  cases a with
  | register r => exact Machine.step_localGet_some l c h
  | immediate v =>
    obtain rfl : v.word = w := Option.some.inj h
    exact Machine.step_const l c
  | block | symbol => exact absurd h (by simp [RegisterFile.value?])

theorem step_valueOp_none {a : Operand} (ha : a.isValue = true)
    (h : RegisterFile.lowered.value? locals a = none) :
    Machine.stepper l (c.at (.op (valueOp a) rest) above locals memory state)
      = .inr (.stuck, memory, state) := by
  cases a with
  | register r => exact Machine.step_localGet_none l c h
  | immediate v => exact absurd h (by simp [RegisterFile.value?])
  | block | symbol => exact absurd ha (by simp [Operand.isValue])

/-- The operations for values put their words on the stack, the last one topmost. -/
theorem reaches_valueOps {operands : List Operand} {words : List Word}
    (h : RegisterFile.lowered.values? locals operands = some words) :
    Reaches (Machine.stepper l)
      (c.at (Code.ofOps (operands.map valueOp) ++ rest) above locals memory state)
      (c.at rest (words.reverse ++ above) locals memory state) := by
  induction operands generalizing words above with
  | nil =>
    obtain rfl : [] = words := Option.some.inj h
    exact .refl _
  | cons a operands ih =>
    rw [RegisterFile.values?_cons] at h
    obtain ⟨w, hw, h⟩ := Option.bind_eq_some_iff.mp h
    obtain ⟨ws, hws, rfl⟩ := Option.map_eq_some_iff.mp h
    rw [List.reverse_cons, List.append_assoc]
    exact .head (step_valueOp c hw) (ih hws)

theorem ends_valueOps {operands : List Operand} (ha : ∀ a ∈ operands, a.isValue = true)
    (h : RegisterFile.lowered.values? locals operands = none) :
    ∃ n, Ends (Machine.stepper l) n
      (c.at (Code.ofOps (operands.map valueOp) ++ rest) above locals memory state)
      (.stuck, memory, state) := by
  induction operands generalizing above with
  | nil => exact absurd h (by simp [RegisterFile.values?])
  | cons a operands ih =>
    rw [List.forall_mem_cons] at ha
    rw [RegisterFile.values?_cons] at h
    cases hw : RegisterFile.lowered.value? locals a with
    | none => exact ⟨1, .halt (step_valueOp_none c ha.1 hw)⟩
    | some w =>
      rw [hw, Option.bind_some, Option.map_eq_none_iff] at h
      obtain ⟨n, hn⟩ := ih ha.2 h
      exact ⟨n + 1, .next (step_valueOp c hw) hn⟩

/-- Operands whose words the interpreter needs are on the stack then. -/
theorem follows_withValues {s : State (Array Word) σ} {operands : List Operand}
    {act : List Word → Next (Array Word) σ} (ha : ∀ a ∈ operands, a.isValue = true)
    (h : ∀ words, RegisterFile.lowered.values? s.active.registers operands = some words →
      Follows l env (act words)
        (c.at rest (words.reverse ++ above) s.active.registers s.memory s.state)) :
    Follows l env (s.withValues .lowered operands act)
      (c.at (Code.ofOps (operands.map valueOp) ++ rest) above s.active.registers s.memory
        s.state) := by
  rw [State.withValues]
  cases hwords : RegisterFile.lowered.values? s.active.registers operands with
  | none => exact ends_valueOps c ha hwords
  | some words => exact .of_reaches (reaches_valueOps c hwords) (h words hwords)

end

section

variable {a : Activation (Array Word)} {c : Place} {p : Program} {layout : Layout}
  {codes : List Code} {k : Nat} {code : Code} {memory : Memory} {state : σ}
  {callers : List (Activation (Array Word) × Option Register)}

theorem Stands.withRegisters (h : Stands l env p layout codes k a c.labels code)
    (registers : Array Word) :
    Stands l env p layout codes k { a with registers } c.labels code :=
  ⟨h.provides, h.function, h.emits, h.index, h.tail, h.mem, h.labels, h.code⟩

theorem PlaceOf.withRegisters (h : PlaceOf l env a callers c) (registers : Array Word)
    (rest : List Instruction) : PlaceOf l env { a with registers, rest } callers c :=
  ⟨h.home, h.results, h.frames, h.depth⟩

/-- A result that is on the stack is taken into the destination. -/
theorem arrives_take (hs : Stands l env p layout codes k a c.labels code)
    (hc : PlaceOf l env a callers c) {n : Nat} (hn : n ≤ 1) {words : List Word}
    (hw : words.length = n) (dest : Option Register) :
    Arrives l env
      (.inl ⟨{ a with registers := RegisterFile.lowered.assign a.registers dest words.head? },
        callers, memory, state⟩)
      (c.at (Code.ofOps (takeOps n dest) ++ code) words a.registers memory state) := by
  have hrelated : ∀ registers, Related l env ⟨{ a with registers }, callers, memory, state⟩
      (c.at code [] registers memory state) := fun registers =>
    .mk (hs.withRegisters registers) (hc.withRegisters registers a.rest)
  match words, n, hw, hn with
  | [], _, rfl, _ =>
    have hnone : RegisterFile.lowered.assign a.registers dest none = a.registers := by
      cases dest <;> rfl
    rw [List.head?_nil, hnone]
    exact ⟨_, .refl _, hrelated a.registers⟩
  | [w], _, rfl, _ =>
    cases dest with
    | none => exact ⟨_, .head (Machine.step_drop l c) (.refl _), hrelated a.registers⟩
    | some r => exact ⟨_, .head (Machine.step_localSet l c) (.refl _), hrelated _⟩
  | _ :: _ :: _, _, rfl, hn =>
    simp at hn

/-- From the loop the machine gets to the start of the block that control goes to. -/
theorem arrives_block {home index : Nat} {f : Function} {registers : Array Word}
    (hprovides : Provides l env home p layout) (hf : p.functions[index]? = some f)
    (hcodes : BlocksEmit layout index (counterLocal f) f.blocks codes) (hlabels : c.labels = [])
    (hc : ∀ rest, PlaceOf l env ⟨home, index, f, registers, rest⟩ callers c) :
    Arrives l env
      (State.atBlock home index f registers callers memory state
        ((dispatch f registers).bind (f.blocks[·]?)))
      (c.at (.loop (loopBody f codes) afterLoop) [] registers memory state) := by
  have hmem := List.mem_of_getElem? hf
  have hvalid := hprovides.valid.functions f hmem
  cases hk : dispatch f registers with
  | none => exact ends_of_dispatch_none c hk
  | some k =>
    have hlt := dispatch_lt hvalid.blocks_ne_nil hk
    obtain ⟨code, hcode, hinstructions⟩ := hcodes.getElem? (List.getElem?_eq_getElem hlt)
    rw [Option.bind_some, List.getElem?_eq_getElem hlt, State.atBlock]
    have hb : f.blocks[k] ∈ f.blocks := List.getElem_mem hlt
    have hplace := hc f.blocks[k].instructions
    refine ⟨_, reaches_block c hlabels hk hcode, .mk (p := p)
      (k := k) ⟨hprovides, hf, hcodes, hlt, hvalid.blocks _ hb,
        fun i hi => Program.mem_instructions hmem hb hi, rfl, hinstructions⟩
      ⟨hplace.home, hplace.results, hplace.frames, hplace.depth⟩⟩

theorem goTo_lowered (target : UInt32) :
    State.goTo ⟨a, callers, memory, state⟩ .lowered target
      = State.atBlock a.home a.index a.function
          (a.registers.setIfInBounds (counterLocal a.function) target) callers memory state
          ((dispatch a.function
            (a.registers.setIfInBounds (counterLocal a.function) target)).bind
              (a.function.blocks[·]?)) := by
  rw [State.goTo, RegisterFile.lowered]
  dsimp only
  cases dispatch a.function (a.registers.setIfInBounds (counterLocal a.function) target) <;> rfl

/-- A jump from inside a block, or from an arm of a conditional there, goes to the block named. -/
theorem follows_jump {labels : List Label} (hs : Stands l env p layout codes k a labels code)
    (hc : PlaceOf l env a callers c) (inner : List Label)
    (hlabels : c.labels = inner ++ labelsIn (loopBody a.function codes) codes k) {depth : Nat}
    (hdepth : depth = inner.length + (a.function.blocks.length - 1 - k)) (rest : Code)
    (target : UInt32) (memory : Memory) (state : σ) :
    Follows l env (State.goTo ⟨a, callers, memory, state⟩ .lowered target)
      (c.at (Code.ofOps (jumpOps (counterLocal a.function) target depth) ++ rest) [] a.registers
        memory state) := by
  have hdrop : c.labels.drop depth = [loopLabel (loopBody a.function codes)] := by
    have hlength : ((codes.drop (k + 1)).map blockLabel).length = a.function.blocks.length - 1
        - k := by
      rw [List.length_map, List.length_drop, hs.emits.length_eq]
      omega
    rw [hlabels, hdepth, labelsIn, ← List.append_assoc, ← hlength, ← List.length_append,
      List.drop_left]
  rw [goTo_lowered]
  refine .of_step (Machine.step_const l c) (.of_reaches (.head (Machine.step_localSet l c)
    (.head (Machine.step_br_to l c hdrop) (.refl _))) ?_)
  exact arrives_block (c := { c with labels := [] }) hs.provides hs.function hs.emits rfl
    fun _ => ⟨hc.home, hc.results, hc.frames, hc.depth⟩

/-! ### Probes and calls -/

/-- A probe that a program has, as its code finds it. -/
def HasProbe (l : Linkage η σ) (env : Environment η σ) (home : Nat) (which : Probes η → η)
    (probe : Nat) : Prop :=
  ∀ probes, env.probes home = some probes →
    l.instances[home]?.bind (·.functions[probe]?) = some (.host (which probes)) ∧
      env.host.type (which probes) = probeType

/-- The operations of a probe do what the interpreter does with it. -/
theorem probe_spec (hag : Agrees l env) (hprovides : Provides l env c.home p layout)
    {which : Probes η → η} {probe : Nat} (hprobe : HasProbe l env c.home which probe)
    (index : Nat) (rest : Code) (above : List Word) (locals : Array Word) (memory : Memory)
    (state : σ) :
    match env.runProbe which c.home index memory state with
    | .inl (memory', state') => Reaches (Machine.stepper l)
        (c.at (Code.ofOps (probeOps layout index probe) ++ rest) above locals memory state)
        (c.at rest above locals memory' state')
    | .inr halt => ∃ n, Ends (Machine.stepper l) n
        (c.at (Code.ofOps (probeOps layout index probe) ++ rest) above locals memory state)
        halt := by
  have hinstrumented := hprovides.describes.isInstrumented
  rw [Environment.runProbe, probeOps, hinstrumented]
  cases hprobes : env.probes c.home with
  | none => exact .refl _
  | some probes =>
    obtain ⟨href, htype⟩ := hprobe probes hprobes
    obtain ⟨-, -, hoffset⟩ := hprovides.probes probes hprobes
    have htype' : l.type? (.host (which probes)) = some probeType := by
      rw [Linkage.type?, hag.host, htype]
    have hcall : Machine.stepper l (c.at (.op (.call probe) rest)
        ([UInt32.ofNat index + probes.offset].reverse ++ above) locals memory state)
        = Machine.enterAt l c (.host (which probes)) [UInt32.ofNat index + probes.offset] rest above
            locals memory state :=
      Machine.step_call l c href htype' rfl
    -- up to the call of the probe the code only computes its argument
    have hreach : Reaches (Machine.stepper l)
        (c.at (Code.ofOps [.const (UInt32.ofNat index), .globalGet layout.offsetGlobal,
          .binary .add, .call probe] ++ rest) above locals memory state)
        (c.at (.op (.call probe) rest) ((UInt32.ofNat index + probes.offset) :: above) locals memory
          state) :=
      .head (Machine.step_const l c) (.head (Machine.step_globalGet l c hoffset)
        (.head (Machine.step_binary_ok l c rfl) (.refl _)))
    dsimp only [Option.isSome_some]
    rw [if_pos rfl]
    cases hanswer : env.host.call (which probes) [UInt32.ofNat index + probes.offset]
      memory state with
    | returned results memory' state' =>
      have hresults : results = [] := by
        have := hag.typed _ _ _ _ _ _ _ (by rw [htype]; rfl) hanswer
        rw [htype] at this
        exact List.length_eq_zero_iff.mp this
      subst hresults
      rw [Machine.enterAt_host_returned l c (by rw [hag.host]; exact hanswer)] at hcall
      exact hreach.trans (.head hcall (.refl _))
    | raised signal memory' state' =>
      rw [Machine.enterAt_host_raised l c (by rw [hag.host]; exact hanswer)] at hcall
      obtain ⟨n, -, hn⟩ := hreach.ends (.halt hcall)
      exact ⟨n, hn⟩

theorem Provides.hasProbe_enter (hag : Agrees l env) {home : Nat}
    (h : Provides l env home p layout) : HasProbe l env home Probes.enter enterProbe :=
  fun probes hprobes => ⟨(h.probes probes hprobes).1, (hag.probes home probes hprobes).1⟩

theorem Provides.hasProbe_leave (hag : Agrees l env) {home : Nat}
    (h : Provides l env home p layout) : HasProbe l env home Probes.leave leaveProbe :=
  fun probes hprobes => ⟨(h.probes probes hprobes).2.1, (hag.probes home probes hprobes).2⟩

/-- A function that the machine starts gets to its first block. -/
theorem arrives_start (hag : Agrees l env) {home index : Nat} {f : Function}
    (hprovides : Provides l env home p layout) (hf : p.functions[index]? = some f)
    (hcodes : BlocksEmit layout index (counterLocal f) f.blocks codes) {frames : List Frame}
    (hframes : CallersOf l env (funcType f.signature).results callers frames)
    (arguments : List Word) :
    Arrives l env (env.start .lowered home index f arguments callers memory state)
      ⟨.start home (funcType f.signature) (bodyOf layout index f codes) arguments, frames,
        callers.length, memory, state⟩ := by
  let c : Place := ⟨[], home, (funcType f.signature).results, frames, callers.length⟩
  show Arrives l env _ (c.at (Code.ofOps (probeOps layout index enterProbe)
    ++ .loop (loopBody f codes) afterLoop) [] (RegisterFile.lowered.start f arguments) memory state)
  rw [Environment.start]
  generalize RegisterFile.lowered.start f arguments = registers
  -- the probe is called first, and the blocks begin if it returns
  have hprobe := probe_spec (c := c) hag hprovides (hprovides.hasProbe_enter hag) index
    (.loop (loopBody f codes) afterLoop) [] registers memory state
  have hfirst : RegisterFile.lowered.first f registers = dispatch f registers := rfl
  cases hrun : env.runProbe Probes.enter home index memory state with
  | inr halt =>
    rw [hrun] at hprobe
    exact hprobe
  | inl left =>
    rw [hrun] at hprobe
    dsimp only
    rw [hfirst]
    exact .of_reaches hprobe (arrives_block (c := c) hprovides hf hcodes rfl
      fun _ => ⟨rfl, rfl, hframes, rfl⟩)

/-- A call does in the machine what it does in the interpreter. -/
theorem follows_enter (hag : Agrees l env) (hs : Stands l env p layout codes k a c.labels code)
    (hc : PlaceOf l env a callers c) {ref : FuncRef η} {type : FuncType}
    (htype : env.type? ref = some type) {arguments : List Word}
    (harguments : arguments.length = type.params) (dest : Option Register) {m : Machine σ}
    (hm : Machine.stepper l m = Machine.enterAt l c ref arguments
      (Code.ofOps (takeOps type.results dest) ++ code) [] a.registers memory state)
    (whole : List Instruction) :
    Follows l env
      (env.call .lowered ⟨{ a with rest := whole }, callers, memory, state⟩ ref
        arguments dest a.rest)
      m := by
  cases ref with
  | host name =>
    obtain rfl : env.host.type name = type := Option.some.inj htype
    rw [Environment.call]
    cases hanswer : env.host.call name arguments memory state with
    | raised signal memory' state' =>
      rw [Machine.enterAt_host_raised l c (by rw [hag.host]; exact hanswer)] at hm
      exact .of_halt hm
    | returned results memory' state' =>
      have hlength := hag.typed _ _ _ _ _ _ _ harguments hanswer
      have hle := FuncType.results_le (env.host.type name)
      rw [Machine.enterAt_host_returned l c (by rw [hag.host]; exact hanswer),
        reverse_of_length_le (by rw [hlength]; exact hle), List.append_nil] at hm
      exact .of_step hm (arrives_take hs hc hle hlength dest)
  | defined home index =>
    obtain ⟨f, hf, rfl⟩ : ∃ f, env.function? home index = some f ∧ funcType f.signature = type :=
      Option.map_eq_some_iff.mp htype
    obtain ⟨q, hprogram, hfunction⟩ := function?_eq_some.mp hf
    obtain ⟨layout', hprovides⟩ := hag.provides home q hprogram
    obtain ⟨codes', hcodes, hbody⟩ := hprovides.body index f hfunction
    simp only [Environment.call, hf]
    -- the place has as many callers as the machine counts calls, so both overflow together
    by_cases hdepth : callers.length < env.maxDepth
    · rw [if_pos hdepth]
      rw [Machine.enterAt_defined l c hbody (by rw [hc.depth, hag.maxDepth]; exact hdepth),
        hc.depth, hc.home, hc.results] at hm
      refine .of_step hm (arrives_start hag hprovides hfunction hcodes ?_ arguments)
      exact .cons ⟨p, layout, codes, k, code, hs, rfl⟩ hc.frames
    · rw [if_neg hdepth]
      rw [Machine.enterAt_defined_overflow l c hbody
        (by rw [hc.depth, hag.maxDepth]; exact hdepth)] at hm
      exact .of_halt hm

/-- A return does in the machine what it does in the interpreter. -/
theorem follows_ret (hag : Agrees l env) (hs : Stands l env p layout codes k a c.labels code)
    (hc : PlaceOf l env a callers c) {words : List Word} (hwords : words.length = a.results)
    (rest : Code) :
    Follows l env (env.giveBack .lowered ⟨a, callers, memory, state⟩ words)
      (c.at (Code.ofOps (probeOps layout a.index leaveProbe) ++ .op .ret rest) words a.registers
        memory state) := by
  have hprovides : Provides l env c.home p layout := by
    rw [hc.home]
    exact hs.provides
  have hprobe := probe_spec hag hprovides (hprovides.hasProbe_leave hag) a.index
    (.op .ret rest) words a.registers memory state
  rw [hc.home] at hprobe
  simp only [Environment.giveBack]
  cases hrun : env.runProbe Probes.leave a.home a.index memory state with
  | inr halt =>
    rw [hrun] at hprobe
    exact hprobe
  | inl left =>
    rw [hrun] at hprobe
    refine .of_reaches hprobe ?_
    have hresults : words.length = c.results := hwords.trans hc.results.symm
    -- the probe is told first; then the last function ends the run, and any
    -- other goes on in its caller
    cases hcallers : c.callers with
    | nil =>
      have hframes := hc.frames
      rw [hcallers] at hframes
      cases hframes
      exact .of_halt (Machine.step_ret_last l c hcallers hresults)
    | cons frame frames =>
      have hframes := hc.frames
      have hdepth := hc.depth
      rw [hcallers] at hframes
      cases hframes with
      | @cons _ b dest _ others _ hframe hrest =>
        obtain ⟨p', layout', codes', k', code', hs', hframe⟩ := hframe
        refine .of_step (Machine.step_ret_caller l c hcallers hresults) ?_
        rw [hframe, List.append_nil, hdepth, List.length_cons, Nat.add_sub_cancel]
        let c' : Place := ⟨frame.labels, b.home, b.results, frames, others.length⟩
        exact arrives_take (c := c') hs' ⟨rfl, rfl, hrest, rfl⟩ (FuncType.results_le _) hwords dest

/-! ### Instructions -/

/-- What is left after an instruction that does not end its block. -/
theorem Stands.advance (hs : Stands l env p layout codes k a c.labels code) {i : Instruction}
    {rest : List Instruction} (hrest : a.rest = i :: rest) (hi : i.opcode.isTerminator = false)
    {others : Code} (hothers : instructionsCode layout
      ⟨a.index, counterLocal a.function, a.function.blocks.length - 1 - k⟩ rest = .ok others) :
    Stands l env p layout codes k { a with rest } c.labels others where
  provides := hs.provides
  function := hs.function
  emits := hs.emits
  index := hs.index
  tail := (hrest ▸ hs.tail).tail hi
  mem := fun j hj => hs.mem j (by rw [hrest]; exact List.mem_cons_of_mem i hj)
  labels := hs.labels
  code := hothers

/-- Instructions that compute: once their operands are on the stack, operations
`ops` do what the opcode says. -/
theorem follows_compute (ops : List Op) {i : Instruction} {rest : List Instruction} {others : Code}
    (hnext : Stands l env p layout codes k { a with rest } c.labels others)
    (hc : PlaceOf l env a callers c) {dest : Register} (hdest : i.dest = some dest)
    (hvalues : ∀ b ∈ i.operands, b.isValue = true)
    (hop : i.opcode.isBinary = true ∨ i.opcode = .neg ∨ i.opcode = .not ∨ i.opcode = .copy ∨
      i.opcode = .loadConst) {above : List Word}
    (hops : ∀ words, words.length = i.operands.length → ∃ outcome,
      compute i.opcode words = some outcome ∧
      match outcome with
      | .error trap => ∃ n, Ends (Machine.stepper l) n
          (c.at (Code.ofOps (ops ++ [.localSet dest.toNat]) ++ others) (words.reverse ++ above)
            a.registers memory state) (.trapped trap, memory, state)
      | .ok w => Reaches (Machine.stepper l)
          (c.at (Code.ofOps (ops ++ [.localSet dest.toNat]) ++ others) (words.reverse ++ above)
            a.registers memory state)
          (c.at (Code.ofOps [.localSet dest.toNat] ++ others) [w] a.registers memory state)) :
    Follows l env (env.instructionStep .lowered ⟨a, callers, memory, state⟩ i rest)
      (c.at (Code.ofOps (i.operands.map valueOp ++ (ops ++ [.localSet dest.toNat])) ++ others) above
        a.registers memory state) := by
  rw [Environment.instructionStep_compute _ _ _ _ hop, Code.ofOps_append, Code.append_assoc]
  refine follows_withValues c (s := ⟨a, callers, memory, state⟩) hvalues fun words hwords => ?_
  -- the operations leave a word on the stack, or trap, as the instruction does
  obtain ⟨outcome, hcompute, houtcome⟩ := hops words (RegisterFile.values?_length hwords)
  rw [Environment.computeStep, hcompute, hdest]
  cases outcome with
  | error trap => exact houtcome
  | ok w =>
    refine .of_reaches houtcome (.of_step (Machine.step_localSet l c) ?_)
    have hc' := hc.withRegisters (a.registers.setIfInBounds dest.toNat w) rest
    exact ⟨_, .refl _, .mk (hnext.withRegisters _) hc'⟩

theorem follows_binary {opcode : Opcode} {op : BinaryOp} {dest : Register} {x y : Operand}
    {location : Option Location} {rest : List Instruction} {others : Code}
    (hnext : Stands l env p layout codes k { a with rest } c.labels others)
    (hc : PlaceOf l env a callers c) (hop : binaryOp? opcode = some op) (hx : x.isValue = true)
    (hy : y.isValue = true) :
    Follows l env
      (env.instructionStep .lowered ⟨a, callers, memory, state⟩
        ⟨opcode, some dest, [x, y], location⟩ rest)
      (c.at (Code.ofOps [valueOp x, valueOp y, .binary op, .localSet dest.toNat] ++ others) []
        a.registers memory state) := by
  have hbinary : opcode.isBinary = true := by
    cases opcode <;> first | rfl | simp [binaryOp?] at hop
  refine follows_compute [.binary op] (i := ⟨opcode, some dest, [x, y], location⟩) hnext hc rfl
    (by simp [hx, hy]) (.inl hbinary) fun words hwords => ?_
  obtain ⟨v, w, rfl⟩ := List.length_eq_two.mp hwords
  refine ⟨_, compute_of_binaryOp? hop v w, ?_⟩
  cases heval : op.eval v w with
  | error trap => exact ⟨1, .halt (Machine.step_binary_error l c heval)⟩
  | ok r => exact .head (Machine.step_binary_ok l c heval) (.refl _)

theorem follows_unary (ops : List Op) {i : Instruction} {dest : Register} {rest : List Instruction}
    {others : Code}
    (hnext : Stands l env p layout codes k { a with rest } c.labels others)
    (hc : PlaceOf l env a callers c) (hdest : i.dest = some dest) {x : Operand}
    (hoperands : i.operands = [x]) (hx : x.isValue = true)
    (hop : i.opcode = .neg ∨ i.opcode = .not ∨ i.opcode = .copy ∨ i.opcode = .loadConst)
    {result : Word → Word} (hcompute : ∀ w, compute i.opcode [w] = some (.ok (result w)))
    {above : List Word}
    (hops : ∀ w code, Reaches (Machine.stepper l)
      (c.at (Code.ofOps ops ++ code) (w :: above) a.registers memory state)
      (c.at code [result w] a.registers memory state)) :
    Follows l env (env.instructionStep .lowered ⟨a, callers, memory, state⟩ i rest)
      (c.at (Code.ofOps (valueOp x :: (ops ++ [.localSet dest.toNat])) ++ others) above
        a.registers memory state) := by
  have hfollows := follows_compute ops
    hnext hc hdest (by simp [hoperands, hx]) (.inr hop) fun words hwords => by
      rw [hoperands] at hwords
      obtain ⟨w, rfl⟩ := List.length_eq_one_iff.mp hwords
      refine ⟨_, hcompute w, ?_⟩
      rw [Code.ofOps_append, Code.append_assoc]
      exact hops w _
  rw [hoperands] at hfollows
  exact hfollows

theorem follows_load {dest : Register} {x : Operand} {location : Option Location}
    {rest : List Instruction} {others : Code}
    (hnext : Stands l env p layout codes k { a with rest } c.labels others)
    (hc : PlaceOf l env a callers c) (hx : x.isValue = true) :
    Follows l env
      (env.instructionStep .lowered ⟨a, callers, memory, state⟩ ⟨.load, some dest, [x], location⟩
        rest)
      (c.at (Code.ofOps [valueOp x, .load, .localSet dest.toNat] ++ others) [] a.registers memory
        state) := by
  refine follows_withValues c (s := ⟨a, callers, memory, state⟩)
    (by simp [hx])
    fun words hwords => ?_
  obtain ⟨w, rfl⟩ := List.length_eq_one_iff.mp (RegisterFile.values?_length hwords)
  rw [Environment.loadStep, ← loadWord?_eq_wordAt?]
  cases hload : memory.loadWord? w.toNat with
  | none => exact .of_halt (Machine.step_load_none l c hload)
  | some v =>
    refine .of_step (Machine.step_load_some l c hload) ?_
    exact arrives_take hnext (hc.withRegisters a.registers rest) (Nat.le_refl 1) rfl
      (some dest)

theorem follows_store {dest : Option Register} {x y : Operand} {location : Option Location}
    {rest : List Instruction} {others : Code}
    (hnext : Stands l env p layout codes k { a with rest } c.labels others)
    (hc : PlaceOf l env a callers c) (hx : x.isValue = true) (hy : y.isValue = true) :
    Follows l env
      (env.instructionStep .lowered ⟨a, callers, memory, state⟩ ⟨.store, dest, [x, y], location⟩
        rest)
      (c.at (Code.ofOps [valueOp x, valueOp y, .store] ++ others) [] a.registers memory state) := by
  refine follows_withValues c (s := ⟨a, callers, memory, state⟩)
    (by simp [hx, hy]) fun words hwords => ?_
  obtain ⟨v, w, rfl⟩ := List.length_eq_two.mp (RegisterFile.values?_length hwords)
  rw [Environment.storeStep, putWordAt?_eq]
  by_cases hroom : v.toNat + 4 ≤ memory.size
  · rw [if_pos hroom]
    refine .of_step (Machine.step_store_in l c hroom) ?_
    exact ⟨_, .refl _, .mk hnext (hc.withRegisters a.registers rest)⟩
  · rw [if_neg hroom]
    exact .of_halt (Machine.step_store_out l c hroom)

theorem follows_branchIf (hs : Stands l env p layout codes k a c.labels code)
    (hc : PlaceOf l env a callers c) {i : Instruction} {condition : Operand}
    {more : List Operand} {yes no : UInt32} {rest : List Instruction} {others : Code}
    (hop : i.opcode = .branchIf) (ho : i.operands = condition :: more)
    (hvalue : condition.isValue = true) (hsuccessors : i.successors = [yes, no]) :
    Follows l env (env.instructionStep .lowered ⟨a, callers, memory, state⟩ i rest)
      (c.at (.op (valueOp condition)
        (.ifElse (.ofOps (jumpOps (counterLocal a.function) yes
            (a.function.blocks.length - 1 - k + 1)))
          (.ofOps (jumpOps (counterLocal a.function) no (a.function.blocks.length - 1 - k + 1)))
          others)) [] a.registers memory state) := by
  have hstep : env.instructionStep .lowered ⟨a, callers, memory, state⟩ i rest
      = Environment.branchIfStep .lowered ⟨a, callers, memory, state⟩ i := by
    rw [Environment.instructionStep, hop]
  rw [hstep, Environment.branchIfStep, ho, hsuccessors]
  cases hw : RegisterFile.lowered.value? a.registers condition with
  | none =>
    simp only [hw]
    exact .of_halt (step_valueOp_none c hvalue hw)
  | some w =>
    simp only [hw]
    refine .of_step (step_valueOp c hw) (Follows.arrives (.of_reaches
      (.head (Machine.step_ifElse l c) (.refl _)) ?_))
    -- either way the jump stands within one construct more
    have hjump : ∀ target, Follows l env (State.goTo ⟨a, callers, memory, state⟩ .lowered target)
        ((c.enter ⟨others, others, []⟩).at (Code.ofOps (jumpOps (counterLocal a.function) target
          (a.function.blocks.length - 1 - k + 1))) [] a.registers memory state) := fun target => by
      have := follows_jump (c := c.enter ⟨others, others, []⟩) hs
        ⟨hc.home, hc.results, hc.frames, hc.depth⟩ [⟨others, others, []⟩] (by rw [← hs.labels]; rfl)
        (Nat.add_comm _ 1) .done target memory state
      rwa [Code.append_done] at this
    simp only [ne_zero_iff]
    split
    · exact hjump yes
    · exact hjump no

theorem follows_callOwn (hag : Agrees l env)
    {dest : Option Register} {callee : Function} {index : Nat} {arguments : List Operand}
    {location : Option Location} {rest : List Instruction} {others : Code}
    (hnext : Stands l env p layout codes k { a with rest } c.labels others)
    (hc : PlaceOf l env a callers c) (ha : ∀ x ∈ arguments, x.isValue = true)
    (hf : p.functions[index]? = some callee) (hn : callee.numParams.toNat = arguments.length) :
    Follows l env
      (env.instructionStep .lowered ⟨a, callers, memory, state⟩
        ⟨.call, dest, .symbol callee.name :: arguments, location⟩ rest)
      (c.at (Code.ofOps (arguments.map valueOp ++ .call (layout.probes + index)
        :: givenOps callee.signature dest) ++ others) [] a.registers memory state) := by
  have hprovides : Provides l env a.home p layout := hnext.provides
  have hindex : p.functionIndex? callee.name = some index :=
    Program.functionIndex?_eq_some hprovides.valid.names_nodup hf
  have htype : env.type? (.defined a.home index) = some (funcType callee.signature) := by
    rw [Environment.type?, function?_eq_some.mpr ⟨p, hprovides.program, hf⟩, Option.map_some]
  rw [Code.ofOps_append, Code.append_assoc]
  refine follows_withValues c (s := ⟨a, callers, memory, state⟩) ha fun words hwords => ?_
  -- the stack holds as many arguments as the function takes
  have hlength : words.length = (funcType callee.signature).params :=
    (RegisterFile.values?_length hwords).trans hn.symm
  simp only [Environment.callName, hprovides.program, hindex]
  refine follows_enter hag hnext (hc.withRegisters a.registers rest) htype hlength dest ?_ a.rest
  rw [← givenOps_eq_takeOps]
  exact Machine.step_call l c (by rw [hc.home]; exact hprovides.function index callee hf)
    ((hag.type?_eq _).trans htype) hlength

/-- A call through an address that the stack holds above the arguments. -/
theorem follows_callAddress (hag : Agrees l env)
    {rest : List Instruction} {others : Code}
    (hnext : Stands l env p layout codes k { a with rest } c.labels others)
    (hc : PlaceOf l env a callers c) {type : FuncType} (htype : type ∈ layout.types)
    (address : Word) {words : List Word} (hlength : words.length = type.params)
    (dest : Option Register) :
    Follows l env
      (env.callAddress .lowered ⟨a, callers, memory, state⟩ type address words dest rest)
      (c.at (.op (.callIndirect (layout.typeIndex type))
        (Code.ofOps (takeOps type.results dest) ++ others)) (address :: (words.reverse ++ []))
        a.registers memory state) := by
  have hstep := Machine.step_callIndirect l c (Code.ofOps (takeOps type.results dest) ++ others) []
    a.registers memory state address (by rw [hc.home]; exact hnext.provides.type type htype) hlength
  rw [Environment.callAddress]
  rw [hag.table] at hstep
  -- both look the address up in one table
  cases hentry : env.table[address.toNat]? with
  | none =>
    rw [hentry] at hstep
    exact .of_halt hstep
  | some entry =>
    rw [hentry] at hstep
    cases entry with
    | none => exact .of_halt hstep
    | some ref =>
      simp only [hag.type?_eq] at hstep
      dsimp only
      by_cases href : env.type? ref = some type
      · rw [if_pos href] at hstep
        rw [if_pos href]
        exact follows_enter hag hnext (hc.withRegisters a.registers rest) href hlength dest hstep
          a.rest
      · rw [if_neg href] at hstep
        rw [if_neg href]
        exact .of_halt hstep

theorem follows_callName (hag : Agrees l env)
    {dest : Option Register} {callee : String} {arguments : List Operand}
    {location : Option Location} {signature : Signature} {address : Nat}
    {rest : List Instruction} {others : Code}
    (hnext : Stands l env p layout codes k { a with rest } c.labels others)
    (hc : PlaceOf l env a callers c) (ha : ∀ x ∈ arguments, x.isValue = true)
    (hu : callee ∈ p.undefinedSymbols) (hs : p.signature? callee = some signature)
    (hn : signature.numParams.toNat = arguments.length)
    (hg : layout.globalIndex? callee = some address) (ht : funcType signature ∈ layout.types) :
    Follows l env
      (env.instructionStep .lowered ⟨a, callers, memory, state⟩
        ⟨.call, dest, .symbol callee :: arguments, location⟩ rest)
      (c.at (Code.ofOps (arguments.map valueOp ++ .globalGet address
          :: .callIndirect (layout.typeIndex (funcType signature)) :: givenOps signature dest)
        ++ others) [] a.registers memory state) := by
  have hprovides : Provides l env a.home p layout := hnext.provides
  obtain ⟨_, _, _, _, hnone⟩ := Program.mem_undefinedSymbols.mp hu
  have hindex := Program.functionIndex?_eq_none.mpr hnone
  have hglobal : l.global? c.home address = some (env.address a.home callee) := by
    rw [hc.home]
    exact hprovides.address callee hu address hg
  rw [Code.ofOps_append, Code.append_assoc]
  refine follows_withValues c (s := ⟨a, callers, memory, state⟩) ha fun words hwords => ?_
  have hlength : words.length = (funcType signature).params :=
    (RegisterFile.values?_length hwords).trans hn.symm
  simp only [Environment.callName, hprovides.program, hindex, hs]
  refine .of_step (Machine.step_globalGet l c hglobal) (Follows.arrives ?_)
  rw [givenOps_eq_takeOps]
  exact follows_callAddress hag hnext hc ht _ hlength dest

theorem follows_callCell (hag : Agrees l env) {dest : Option Register} {cell : String}
    {arguments : List Operand} {location : Option Location} {index : Nat}
    {rest : List Instruction} {others : Code}
    (hnext : Stands l env p layout codes k { a with rest } c.labels others)
    (hc : PlaceOf l env a callers c) (ha : ∀ x ∈ arguments, x.isValue = true)
    (hcell : cell ∈ p.cells) (hg : layout.globalIndex? cell = some index)
    (ht : (⟨arguments.length, dest.isSome⟩ : FuncType) ∈ layout.types) :
    Follows l env
      (env.instructionStep .lowered ⟨a, callers, memory, state⟩
        ⟨.callIndirect, dest, .symbol cell :: arguments, location⟩ rest)
      (c.at (Code.ofOps (arguments.map valueOp ++ .globalGet index
          :: .callIndirect (layout.typeIndex ⟨arguments.length, dest.isSome⟩)
          :: dest.toList.map fun r => .localSet r.toNat) ++ others) [] a.registers
          memory state) := by
  have hglobal : l.global? c.home index = some (env.cell a.home cell) := by
    rw [hc.home]
    exact hnext.provides.cell cell hcell index hg
  have htake : (dest.toList.map fun r => Op.localSet r.toNat)
      = takeOps (⟨arguments.length, dest.isSome⟩ : FuncType).results dest := by
    cases dest <;> rfl
  rw [Code.ofOps_append, Code.append_assoc]
  refine follows_withValues c (s := ⟨a, callers, memory, state⟩) ha fun words hwords => ?_
  have hlength := RegisterFile.values?_length hwords
  refine .of_step (Machine.step_globalGet l c hglobal) (Follows.arrives ?_)
  rw [htake]
  simp only [hlength]
  exact follows_callAddress hag hnext hc ht _ hlength dest

/-- One step of the interpreter, by the instruction that is next. -/
theorem follows_instruction (hag : Agrees l env)
    (hs : Stands l env p layout codes k a c.labels code) (hc : PlaceOf l env a callers c)
    {i : Instruction} {rest : List Instruction} {first others : Code}
    (hnext : i.opcode.isTerminator = false →
      Stands l env p layout codes k { a with rest } c.labels others)
    (hemits : Emits layout p a.function
      ⟨a.index, counterLocal a.function, a.function.blocks.length - 1 - k⟩ i first) :
    Follows l env (env.instructionStep .lowered ⟨a, callers, memory, state⟩ i rest)
      (c.at (first ++ others) [] a.registers memory state) := by
  -- what was emitted for the instruction says which lemma applies
  cases hemits with
  | @binary opcode op dest x y location hop hx hy =>
    refine follows_binary (hnext ?_) hc hop hx hy
    cases opcode <;> first | rfl | simp [binaryOp?] at hop
  | @neg dest x location hx =>
    refine .of_step (Machine.step_const l c) (Follows.arrives ?_)
    exact follows_unary [.binary .sub] (hnext rfl) hc rfl rfl hx (.inl rfl) compute_neg
      fun w code => .head (Machine.step_binary_ok l c rfl) (.refl _)
  | not hx =>
    exact follows_unary [.eqz] (hnext rfl) hc rfl rfl hx (.inr (.inl rfl)) compute_not
      fun w code => .head (Machine.step_eqz l c) (.refl _)
  | copy hop hx =>
    rcases hop with rfl | rfl
    · exact follows_unary [] (hnext rfl) hc rfl rfl hx (.inr (.inr (.inl rfl)))
        (fun w => rfl) fun w code => .refl _
    · exact follows_unary [] (hnext rfl) hc rfl rfl hx (.inr (.inr (.inr rfl)))
        (fun w => rfl) fun w code => .refl _
  | load hx => exact follows_load (hnext rfl) hc hx
  | store hx hy => exact follows_store (hnext rfl) hc hx hy
  | @branch _ target hop hsuccessors ht =>
    have hstep : env.instructionStep .lowered ⟨a, callers, memory, state⟩ i rest
        = State.goTo ⟨a, callers, memory, state⟩ .lowered target := by
      simp only [Environment.instructionStep, hop, hsuccessors]
    rw [hstep]
    exact follows_jump hs hc [] hs.labels (Nat.zero_add _).symm _ target memory state
  | branchIf hop ho hcondition hsuccessors =>
    exact follows_branchIf hs hc hop ho hcondition hsuccessors
  | callOwn ha hf hn => exact follows_callOwn hag (hnext rfl) hc ha hf hn
  | callAddress ha hu hsignature hn _ hg ht =>
    exact follows_callName hag (hnext rfl) hc ha hu hsignature hn hg ht
  | callCell ha hcell hg ht => exact follows_callCell hag (hnext rfl) hc ha hcell hg ht
  | @ret dest operands location ha hn =>
    rw [Code.ofOps_append, Code.append_assoc]
    refine follows_withValues c (s := ⟨a, callers, memory, state⟩) ha fun words hwords => ?_
    have hlength : words.length = a.results := (RegisterFile.values?_length hwords).trans hn
    have hle : words.length ≤ 1 := hlength ▸ FuncType.results_le _
    rw [reverse_of_length_le hle, List.append_nil, Code.ofOps_append, Code.append_assoc]
    exact follows_ret hag hs hc hlength others
  | unreachable hop =>
    have hstep : env.instructionStep .lowered ⟨a, callers, memory, state⟩ i rest
        = .inr (.trapped .unreachable, memory, state) := by
      rw [Environment.instructionStep, hop]
      rfl
    rw [hstep]
    exact .of_halt (Machine.step_unreachable l c)

end

/-! ### Calls from outside -/

/-- What a step of the interpreter leads to, the machine gets to with a step or more. -/
theorem follows_step (hag : Agrees l env) {s : State (Array Word) σ} {m : Machine σ}
    (h : Related l env s m) : Follows l env (env.step .lowered s) m := by
  cases h with
  | @mk a callers memory state c p layout codes k code hs hc =>
    cases hrest : a.rest with
    | nil => exact absurd hrest hs.tail.ne_nil
    | cons i rest =>
      have hcode := hs.code
      rw [hrest] at hcode
      obtain ⟨first, others, hfirst, hothers, rfl⟩ := instructionsCode_cons.mp hcode
      have htail := hs.tail
      rw [hrest] at htail
      have hemits := emits_of_eq_ok hs.provides.describes hs.provides.valid
        (hs.mem i (by simp [hrest])) htail.head hfirst
      have hstep : env.step .lowered ⟨a, callers, memory, state⟩
          = env.instructionStep .lowered ⟨a, callers, memory, state⟩ i rest := by
        rw [Environment.step, hrest]
      rw [hstep]
      exact follows_instruction hag hs hc (fun hi => hs.advance hrest hi hothers) hemits

theorem matches_step (hag : Agrees l env) {s : State (Array Word) σ} {m : Machine σ}
    (h : Related l env s m) :
    Matches (env.step .lowered) (Machine.stepper l) (Related l env) (fun _ => False)
      (fun _ => False) s m := by
  have hfollows := follows_step hag h
  cases hstep : env.step .lowered s with
  | inl s' =>
    rw [hstep] at hfollows
    obtain ⟨m', hadvances, hrelated⟩ := hfollows
    exact .step hstep hadvances hrelated
  | inr r =>
    rw [hstep] at hfollows
    obtain ⟨n, hn⟩ := hfollows
    exact .halt hstep hn

theorem endsFrom_iff (hag : Agrees l env) {next : Next (Array Word) σ} {m : Machine σ}
    (h : Arrives l env next m) {r : Halt σ} :
    env.EndsFrom .lowered next r ↔ ∃ n, Ends (Machine.stepper l) n m r := by
  cases next with
  | inl s =>
    obtain ⟨m', hreaches, hrelated⟩ := h
    rw [hreaches.exists_ends_iff]
    exact exists_ends_iff (fun _ _ => matches_step hag) hrelated
  | inr r' =>
    obtain ⟨n, hn⟩ := h
    constructor
    · rintro rfl
      exact ⟨n, hn⟩
    · rintro ⟨n', hn'⟩
      exact (hn.unique hn').2

/-- A call of a function from outside ends in the machine as it does in the interpreter that keeps
registers as compiled code does. -/
theorem finishes_iff (hag : Agrees l env) (ref : FuncRef η) (arguments : List Word)
    (memory : Memory) (state : σ) (r : Halt σ) :
    l.Finishes ref arguments memory state r ↔
      env.Finishes .lowered ref arguments memory state r := by
  cases ref with
  | host name =>
    rw [Environment.Finishes]
    cases hanswer : env.host.call name arguments memory state <;>
      exact Linkage.finishes_of_call_eq fun n => by rw [Linkage.call, hag.host, hanswer]
  | defined home index =>
    rw [Environment.Finishes]
    cases hf : env.function? home index with
    | none =>
      exact Linkage.finishes_of_call_eq fun n => by rw [Linkage.call, hag.body?_eq_none hf]
    | some f =>
      obtain ⟨p, hprogram, hfunction⟩ := function?_eq_some.mp hf
      obtain ⟨layout, hprovides⟩ := hag.provides home p hprogram
      obtain ⟨codes, hcodes, hbody⟩ := hprovides.body index f hfunction
      -- there is room for one call at least, or the call fails at once
      by_cases hdepth : 0 < env.maxDepth
      · simp only [if_pos hdepth]
        rw [Linkage.finishes_defined hbody (by rw [hag.maxDepth]; exact hdepth)]
        exact (endsFrom_iff hag
          (arrives_start hag hprovides hfunction hcodes .nil arguments)).symm
      · simp only [if_neg hdepth]
        refine Linkage.finishes_of_call_eq fun n => ?_
        rw [← hag.maxDepth] at hdepth
        simp only [Linkage.call, hbody, if_neg hdepth]

end MutationAnalysis.Interpreter
