/-
Steps of the machine.

A place is everything of a machine that plain code leaves alone: the labels, the instance, the
callers.  The lemmas `step_…` say what each instruction does at a place.  `Linkage.Finishes` says
that a call ends with a result once it is given enough steps.

* `Machine.run_eq_of_ends`, `Machine.ends_of_run`: running is following steps;
* `Linkage.finishes_defined`: a call of a defined function finishes as its first frame ends.
-/
import MutationAnalysis.Wasm.Call
import MutationAnalysis.Proofs.Transition

namespace MutationAnalysis

open Wasm

/-- How a call ended and what it left behind. -/
abbrev Halt (σ : Type) := Ending × Memory × σ

namespace Wasm

variable {η σ : Type}

/-- What a step leads to, as the step of a system. -/
def Transition.toSum : Transition σ → Machine σ ⊕ Halt σ
  | .next m => .inl m
  | .halt e memory state => .inr (e, memory, state)

/-- One step of the machine. -/
def Machine.stepper (l : Linkage η σ) (m : Machine σ) : Machine σ ⊕ Halt σ := (m.step l).toSum

theorem Machine.stepper_eq_inl {l : Linkage η σ} {m m' : Machine σ} :
    stepper l m = .inl m' ↔ m.step l = .next m' := by
  rw [stepper]
  cases m.step l with
  | next => exact ⟨fun h => congrArg _ (Sum.inl.inj h), fun h => congrArg _ (Transition.next.inj h)⟩
  | halt => exact iff_of_false nofun nofun

theorem Machine.stepper_eq_inr {l : Linkage η σ} {m : Machine σ} {r : Halt σ} :
    stepper l m = .inr r ↔ m.step l = .halt r.1 r.2.1 r.2.2 := by
  rw [stepper]
  cases m.step l with
  | next => exact iff_of_false nofun nofun
  | halt e memory state =>
    constructor
    · intro h
      obtain rfl := Sum.inr.inj h
      rfl
    · intro h
      obtain ⟨rfl, rfl, rfl⟩ := Transition.halt.inj h
      rfl

theorem Machine.run_eq_of_ends {l : Linkage η σ} {n : Nat} {m : Machine σ} {r : Halt σ}
    (h : Ends (stepper l) n m r) (k : Nat) :
    Machine.run l (n + k) m = ⟨r.1, r.2.1, r.2.2, k⟩ := by
  induction h with
  | halt h => rw [Nat.add_comm, Machine.run_succ, stepper_eq_inr.mp h]
  | next h _ ih =>
    rw [Nat.add_right_comm, Machine.run_succ, stepper_eq_inl.mp h]
    exact ih

/-- A run that leaves steps over has ended. -/
theorem Machine.ends_of_run {l : Linkage η σ} {steps : Nat} {m : Machine σ} {e : Ending}
    {memory : Memory} {state : σ} {left : Nat}
    (h : Machine.run l steps m = ⟨e, memory, state, left⟩) (hleft : left ≠ 0) :
    ∃ n, n + left = steps ∧ Ends (stepper l) n m (e, memory, state) := by
  induction steps generalizing m with
  | zero =>
    obtain ⟨-, -, -, rfl⟩ := Run.mk.inj h
    exact absurd rfl hleft
  | succ steps ih =>
    rw [Machine.run_succ] at h
    cases hstep : m.step l with
    | next m' =>
      rw [hstep] at h
      obtain ⟨n, hn, hends⟩ := ih h
      exact ⟨n + 1, by omega, .next (stepper_eq_inl.mpr hstep) hends⟩
    | halt e' memory' state' =>
      rw [hstep] at h
      obtain ⟨rfl, rfl, rfl, rfl⟩ := Run.mk.inj h
      exact ⟨1, by omega, .halt (stepper_eq_inr.mpr hstep)⟩

/-- A run that is not interrupted has ended. -/
theorem Machine.ends_of_run_of_ne {l : Linkage η σ} {steps : Nat} {m : Machine σ}
    (h : (Machine.run l steps m).ending ≠ .trapped .interrupt) :
    ∃ n, n + (Machine.run l steps m).stepsLeft = steps ∧ Ends (stepper l) n m
      ((Machine.run l steps m).ending, (Machine.run l steps m).memory,
        (Machine.run l steps m).state) := by
  induction steps generalizing m with
  | zero => exact absurd rfl h
  | succ steps ih =>
    rw [Machine.run_succ] at h ⊢
    cases hstep : m.step l with
    | next m' =>
      rw [hstep] at h
      obtain ⟨n, hn, hends⟩ := ih h
      exact ⟨n + 1, by dsimp only; omega, .next (stepper_eq_inl.mpr hstep) hends⟩
    | halt e memory state =>
      exact ⟨1, Nat.add_comm 1 steps, .halt (stepper_eq_inr.mpr hstep)⟩

/-- A call ends with a result, after some number of steps whatever more it is given. -/
def Linkage.Finishes (l : Linkage η σ) (ref : FuncRef η) (arguments : List Word)
    (memory : Memory) (state : σ) (r : Halt σ) : Prop :=
  ∃ n, ∀ k, l.call (n + k) ref arguments memory state = ⟨r.1, r.2.1, r.2.2, k⟩

/-- A call has one result at most. -/
theorem Linkage.Finishes.unique {l : Linkage η σ} {ref : FuncRef η} {arguments : List Word}
    {memory : Memory} {state : σ} {r r' : Halt σ}
    (h : l.Finishes ref arguments memory state r) (h' : l.Finishes ref arguments memory state r') :
    r = r' := by
  obtain ⟨n, hn⟩ := h
  obtain ⟨m, hm⟩ := h'
  have := hn m
  rw [Nat.add_comm, hm n] at this
  obtain ⟨h₁, h₂, h₃, -⟩ := Run.mk.inj this
  exact Prod.ext h₁.symm (Prod.ext h₂.symm h₃.symm)

/-- A call that takes no steps has the result that it has at once. -/
theorem Linkage.finishes_of_call_eq {l : Linkage η σ} {ref : FuncRef η} {arguments : List Word}
    {memory : Memory} {state : σ} {r r' : Halt σ}
    (h : ∀ n, l.call n ref arguments memory state = ⟨r'.1, r'.2.1, r'.2.2, n⟩) :
    l.Finishes ref arguments memory state r ↔ r = r' := by
  constructor
  · intro hr
    exact hr.unique ⟨0, fun k => by rw [h, Nat.zero_add]⟩
  · rintro rfl
    exact ⟨0, fun k => by rw [h, Nat.zero_add]⟩

theorem Linkage.finishes_defined {l : Linkage η σ} {home index : Nat} {type : FuncType}
    {body : Body} (hbody : l.body? home index = some (type, body)) (hdepth : 0 < l.maxDepth)
    {arguments : List Word} {memory : Memory} {state : σ} {r : Halt σ} :
    l.Finishes (.defined home index) arguments memory state r ↔
      ∃ n,
        Ends (Machine.stepper l) n ⟨.start home type body arguments, [], 0, memory, state⟩ r := by
  constructor
  · rintro ⟨n, hn⟩
    have hrun := hn 1
    rw [Linkage.call_defined hbody hdepth] at hrun
    obtain ⟨k, -, hk⟩ := Machine.ends_of_run hrun (by decide)
    exact ⟨k, hk⟩
  · rintro ⟨n, hn⟩
    refine ⟨n, fun k => ?_⟩
    rw [Linkage.call_defined hbody hdepth, Machine.run_eq_of_ends hn]

/-- A call that is not interrupted has ended. -/
theorem Linkage.finishes_of_call {l : Linkage η σ} {steps : Nat} {ref : FuncRef η}
    {arguments : List Word} {memory : Memory} {state : σ} {run : Run σ}
    (h : l.call steps ref arguments memory state = run) (hrun : run.ending ≠ .trapped .interrupt) :
    l.Finishes ref arguments memory state (run.ending, run.memory, run.state) := by
  subst h
  cases ref with
  | host name =>
    refine ⟨0, fun k => ?_⟩
    simp only [Linkage.call]
    cases l.host.call name arguments memory state <;> simp
  | defined home index =>
    cases hbody : l.body? home index with
    | none =>
      refine ⟨0, fun k => ?_⟩
      simp only [Linkage.call, hbody, Nat.zero_add]
    | some body =>
      obtain ⟨type, body⟩ := body
      by_cases hdepth : 0 < l.maxDepth
      · rw [Linkage.call_defined hbody hdepth] at hrun ⊢
        obtain ⟨n, -, hends⟩ := Machine.ends_of_run_of_ne hrun
        exact (Linkage.finishes_defined hbody hdepth).mpr ⟨n, hends⟩
      · refine ⟨0, fun k => ?_⟩
        simp only [Linkage.call, hbody, if_neg hdepth, Nat.zero_add]

/-! ### Places -/

/-- What plain code leaves alone. -/
structure Place where
  labels : List Label
  home : Nat
  results : Nat
  callers : List Frame
  depth : Nat

/-- The machine at a place. -/
def Place.at (c : Place) (code : Code) (operands : List Word) (locals : Array Word)
    (memory : Memory) (state : σ) : Machine σ :=
  ⟨⟨code, c.labels, operands, locals, c.home, c.results⟩, c.callers, c.depth, memory, state⟩

/-- The place inside a construct. -/
def Place.enter (c : Place) (label : Label) : Place := { c with labels := label :: c.labels }

namespace Machine

variable (l : Linkage η σ) (c : Place) {rest : Code} {operands : List Word} {locals : Array Word}
  {memory : Memory} {state : σ}

theorem step_const {v : Word} :
    stepper l (c.at (.op (.const v) rest) operands locals memory state)
      = .inl (c.at rest (v :: operands) locals memory state) := rfl

theorem step_localGet_eq {i : Nat} :
    step l (c.at (.op (.localGet i) rest) operands locals memory state)
      = match locals[i]? with
        | some value => .next (c.at rest (value :: operands) locals memory state)
        | none => .halt .stuck memory state := rfl

theorem step_localGet_some {i : Nat} {v : Word} (h : locals[i]? = some v) :
    stepper l (c.at (.op (.localGet i) rest) operands locals memory state)
      = .inl (c.at rest (v :: operands) locals memory state) := by
  rw [stepper, step_localGet_eq, h]
  rfl

theorem step_localGet_none {i : Nat} (h : locals[i]? = none) :
    stepper l (c.at (.op (.localGet i) rest) operands locals memory state)
      = .inr (.stuck, memory, state) := by
  rw [stepper, step_localGet_eq, h]
  rfl

theorem step_localSet {i : Nat} {v : Word} :
    stepper l (c.at (.op (.localSet i) rest) (v :: operands) locals memory state)
      = .inl (c.at rest operands (locals.setIfInBounds i v) memory state) := rfl

theorem step_drop {v : Word} :
    stepper l (c.at (.op .drop rest) (v :: operands) locals memory state)
      = .inl (c.at rest operands locals memory state) := rfl

theorem step_binary_ok {op : BinaryOp} {a b w : Word} (h : op.eval a b = .ok w) :
    stepper l (c.at (.op (.binary op) rest) (b :: a :: operands) locals memory state)
      = .inl (c.at rest (w :: operands) locals memory state) := by
  rw [stepper, Place.at, step_binary, h]
  rfl

theorem step_binary_error {op : BinaryOp} {a b : Word} {trap : Trap}
    (h : op.eval a b = .error trap) :
    stepper l (c.at (.op (.binary op) rest) (b :: a :: operands) locals memory state)
      = .inr (.trapped trap, memory, state) := by
  rw [stepper, Place.at, step_binary, h]
  rfl

theorem step_eqz {a : Word} :
    stepper l (c.at (.op .eqz rest) (a :: operands) locals memory state)
      = .inl (c.at rest (wordOfBool (a == 0) :: operands) locals memory state) := rfl

theorem step_load_eq {a : Word} :
    step l (c.at (.op .load rest) (a :: operands) locals memory state)
      = match memory.loadWord? a.toNat with
        | some value => .next (c.at rest (value :: operands) locals memory state)
        | none => .halt (.trapped .memoryOutOfBounds) memory state := rfl

theorem step_load_some {a w : Word} (h : memory.loadWord? a.toNat = some w) :
    stepper l (c.at (.op .load rest) (a :: operands) locals memory state)
      = .inl (c.at rest (w :: operands) locals memory state) := by
  rw [stepper, step_load_eq, h]
  rfl

theorem step_load_none {a : Word} (h : memory.loadWord? a.toNat = none) :
    stepper l (c.at (.op .load rest) (a :: operands) locals memory state)
      = .inr (.trapped .memoryOutOfBounds, memory, state) := by
  rw [stepper, step_load_eq, h]
  rfl

theorem step_store_in {a w : Word} (h : a.toNat + 4 ≤ memory.size) :
    stepper l (c.at (.op .store rest) (w :: a :: operands) locals memory state)
      = .inl (c.at rest operands locals (memory.putWord a.toNat w) state) := by
  change Transition.toSum (if a.toNat + 4 ≤ memory.size then
      Transition.next (c.at rest operands locals (memory.putWord a.toNat w) state)
    else .halt (.trapped .memoryOutOfBounds) memory state) = _
  rw [if_pos h]
  rfl

theorem step_store_out {a w : Word} (h : ¬ a.toNat + 4 ≤ memory.size) :
    stepper l (c.at (.op .store rest) (w :: a :: operands) locals memory state)
      = .inr (.trapped .memoryOutOfBounds, memory, state) := by
  change Transition.toSum (if a.toNat + 4 ≤ memory.size then
      Transition.next (c.at rest operands locals (memory.putWord a.toNat w) state)
    else .halt (.trapped .memoryOutOfBounds) memory state) = _
  rw [if_neg h]
  rfl

theorem step_globalGet_eq {i : Nat} :
    step l (c.at (.op (.globalGet i) rest) operands locals memory state)
      = match l.global? c.home i with
        | some value => .next (c.at rest (value :: operands) locals memory state)
        | none => .halt .stuck memory state := rfl

theorem step_globalGet {i : Nat} {v : Word} (h : l.global? c.home i = some v) :
    stepper l (c.at (.op (.globalGet i) rest) operands locals memory state)
      = .inl (c.at rest (v :: operands) locals memory state) := by
  rw [stepper, step_globalGet_eq, h]
  rfl

theorem step_unreachable :
    stepper l (c.at (.op .unreachable rest) operands locals memory state)
      = .inr (.trapped .unreachable, memory, state) := by
  cases operands <;> rfl

theorem step_block {body : Code} :
    stepper l (c.at (.block body rest) operands locals memory state)
      = .inl ((c.enter ⟨rest, rest, operands⟩).at body operands locals memory state) := rfl

theorem step_loop {body : Code} :
    stepper l (c.at (.loop body rest) operands locals memory state)
      = .inl ((c.enter ⟨.loop body rest, rest, operands⟩).at body operands locals memory state) :=
  rfl

theorem step_ifElse {yes no : Code} {v : Word} :
    stepper l (c.at (.ifElse yes no rest) (v :: operands) locals memory state)
      = .inl ((c.enter ⟨rest, rest, operands⟩).at (if v ≠ 0 then yes else no) operands locals
          memory state) := rfl

/-- A branch goes on behind the construct that it leaves. -/
theorem step_br_to {depth : Nat} {label : Label} {labels : List Label}
    (h : c.labels.drop depth = label :: labels) :
    stepper l (c.at (.op (.br depth) rest) operands locals memory state)
      = .inl ({ c with labels }.at label.onBranch label.operands locals memory state) := by
  rw [stepper, Place.at, step_br, branch]
  simp only [h]
  rfl

theorem step_brTable_to {depths : List Nat} {fallback : Nat} {v : Word} {label : Label}
    {labels : List Label} (h : c.labels.drop (depths.getD v.toNat fallback) = label :: labels) :
    stepper l (c.at (.op (.brTable depths fallback) rest) (v :: operands) locals memory state)
      = .inl ({ c with labels }.at label.onBranch label.operands locals memory state) := by
  rw [stepper, Place.at, step_brTable, branch]
  simp only [h]
  rfl

/-- A function returns to its caller, which finds the results on its stack. -/
theorem step_ret_caller {caller : Frame} {callers : List Frame}
    (hcallers : c.callers = caller :: callers) (h : operands.length = c.results) :
    stepper l (c.at (.op .ret rest) operands locals memory state)
      = .inl ⟨{ caller with operands := operands ++ caller.operands }, callers, c.depth - 1, memory,
          state⟩ := by
  have htake : operands.take c.results = operands := by
    rw [← h, List.take_length]
  have hgive : stepper l (c.at (.op .ret rest) operands locals memory state)
      = (giveBack (c.at (.op .ret rest) operands locals memory state)).toSum := by
    cases operands <;> rfl
  rw [hgive, giveBack]
  simp only [Place.at, htake, h, Nat.lt_irrefl, if_false, hcallers]
  rfl

theorem step_ret_last (hcallers : c.callers = []) (h : operands.length = c.results) :
    stepper l (c.at (.op .ret rest) operands locals memory state)
      = .inr (.returned operands, memory, state) := by
  have htake : operands.take c.results = operands := by
    rw [← h, List.take_length]
  have hgive : stepper l (c.at (.op .ret rest) operands locals memory state)
      = (giveBack (c.at (.op .ret rest) operands locals memory state)).toSum := by
    cases operands <;> rfl
  rw [hgive, giveBack]
  simp only [Place.at, htake, h, Nat.lt_irrefl, if_false, hcallers, halt]
  rfl

/-! ### Calls -/

/-- Calls a function from a place, which goes on with the rest and the other operands. -/
def enterAt (ref : FuncRef η) (arguments : List Word) (rest : Code) (operands : List Word)
    (locals : Array Word) (memory : Memory) (state : σ) : Machine σ ⊕ Halt σ :=
  (enter l (c.at rest operands locals memory state) ref arguments rest operands).toSum

theorem enterAt_host_returned {name : η} {arguments results : List Word} {memory' : Memory}
    {state' : σ} (h : l.host.call name arguments memory state = .returned results memory' state') :
    enterAt l c (.host name) arguments rest operands locals memory state
      = .inl (c.at rest (results.reverse ++ operands) locals memory' state') := by
  rw [enterAt, enter]
  simp only [Place.at, h]
  rfl

theorem enterAt_host_raised {name : η} {arguments : List Word} {signal : Signal}
    {memory' : Memory} {state' : σ}
    (h : l.host.call name arguments memory state = .raised signal memory' state') :
    enterAt l c (.host name) arguments rest operands locals memory state
      = .inr (.raised signal, memory', state') := by
  rw [enterAt, enter]
  simp only [Place.at, h]
  rfl

theorem enterAt_defined {home index : Nat} {arguments : List Word} {type : FuncType} {body : Body}
    (h : l.body? home index = some (type, body)) (hdepth : c.depth < l.maxDepth) :
    enterAt l c (.defined home index) arguments rest operands locals memory state
      = .inl ⟨.start home type body arguments,
          ⟨rest, c.labels, operands, locals, c.home, c.results⟩ :: c.callers, c.depth + 1, memory,
          state⟩ := by
  rw [enterAt, enter]
  simp only [h, Place.at, hdepth, if_true]
  rfl

theorem enterAt_defined_overflow {home index : Nat} {arguments : List Word} {type : FuncType}
    {body : Body} (h : l.body? home index = some (type, body)) (hdepth : ¬ c.depth < l.maxDepth) :
    enterAt l c (.defined home index) arguments rest operands locals memory state
      = .inr (.trapped .stackOverflow, memory, state) := by
  rw [enterAt, enter]
  simp only [h, Place.at, hdepth, if_false]
  rfl

theorem callWith_eq {ref : FuncRef η} {type : FuncType} {arguments : List Word} (code : Code)
    (above : List Word) (h : arguments.length = type.params) :
    (callWith l (c.at code above locals memory state) ref type rest
        (arguments.reverse ++ operands)).toSum
      = enterAt l c ref arguments rest operands locals memory state := by
  have hlength : arguments.reverse.length = type.params := by rw [List.length_reverse, h]
  have htake : (arguments.reverse ++ operands).take type.params = arguments.reverse := by
    rw [← hlength, List.take_left]
  have hdrop : (arguments.reverse ++ operands).drop type.params = operands := by
    rw [← hlength, List.drop_left]
  rw [callWith, enterAt]
  simp only [htake, hdrop, hlength, Nat.lt_irrefl, if_false, List.reverse_reverse]
  cases ref <;> rfl

theorem step_call_eq {i : Nat} :
    step l (c.at (.op (.call i) rest) operands locals memory state)
      = match l.instances[c.home]?.bind (·.functions[i]?) with
        | none => .halt .stuck memory state
        | some ref =>
          match l.type? ref with
          | none => .halt .stuck memory state
          | some type => callWith l (c.at (.op (.call i) rest) operands locals memory state)
              ref type rest operands := by
  cases operands <;> rfl

theorem step_call {i : Nat} {ref : FuncRef η} {type : FuncType} {arguments : List Word}
    (href : l.instances[c.home]?.bind (·.functions[i]?) = some ref)
    (htype : l.type? ref = some type) (h : arguments.length = type.params) :
    stepper l (c.at (.op (.call i) rest) (arguments.reverse ++ operands) locals memory state)
      = enterAt l c ref arguments rest operands locals memory state := by
  rw [← callWith_eq l c (.op (.call i) rest) (arguments.reverse ++ operands) h,
    stepper, step_call_eq, href]
  simp only [htype]

theorem step_callIndirect_eq {i : Nat} {address : Word} :
    step l (c.at (.op (.callIndirect i) rest) (address :: operands) locals memory state)
      = match l.instances[c.home]?.bind (·.types[i]?) with
        | none => .halt .stuck memory state
        | some type => callAddress l (c.at (.op (.callIndirect i) rest) (address :: operands) locals
            memory state) type address.toNat rest operands := rfl

variable (rest operands locals memory state) in
/-- A call through the table does what the entry says, if it has the type. -/
theorem step_callIndirect {i : Nat} {type : FuncType} (address : Word) {arguments : List Word}
    (htype : l.instances[c.home]?.bind (·.types[i]?) = some type)
    (h : arguments.length = type.params) :
    stepper l (c.at (.op (.callIndirect i) rest) (address :: (arguments.reverse ++ operands)) locals
        memory state)
      = match l.table[address.toNat]? with
        | none => .inr (.trapped .tableOutOfBounds, memory, state)
        | some none => .inr (.trapped .indirectCallToNull, memory, state)
        | some (some ref) =>
          if l.type? ref = some type then
            enterAt l c ref arguments rest operands locals memory state
          else .inr (.trapped .badSignature, memory, state) := by
  rw [stepper, step_callIndirect_eq, htype]
  simp only [callAddress]
  cases l.table[address.toNat]? with
  | none => rfl
  | some entry =>
    cases entry with
    | none => rfl
    | some ref =>
      dsimp only
      split
      · exact callWith_eq l c _ _ h
      · rfl

end Machine

end Wasm

end MutationAnalysis
