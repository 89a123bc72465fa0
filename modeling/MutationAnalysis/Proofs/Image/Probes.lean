/-
What probes are told while code runs.

The host can write down what its probes are told and do everything else as before
(`Native.observed`).  So the run of an image shows what its probes were told in the same run with
that host.  In an image in which programs have probes, and call no probe themselves, what is told
during a call that returns is a whole call under the number of its function, which leaves the stack
of the recorder as it was.  A call that ends otherwise leaves functions under way.

* `Native.projects_observed`: writing down makes no difference to code;
* `Environment.HasNativeProbes.isWatched`: all that probes are told is written down;
* `Interpreter.Agrees.records`: what a call tells the probes that ends;
* `Interpreter.Agrees.tells`: what a call tells the probes that returns to whatever callers.
-/
import MutationAnalysis.Proofs.Image.Instrumented
import MutationAnalysis.Proofs.Interpreter.Balance
import MutationAnalysis.Proofs.Interpreter.Simulation
import MutationAnalysis.Proofs.Wasm.Noting

namespace MutationAnalysis

open Wasm Lowering Recorder

/-! ### A host that writes down -/

namespace Native

/-- What a function of the host is told as a probe. -/
def told : Native → List Word → List Event
  | enterFunction, [k] => [.enter k.toNat]
  | leaveFunction, [k] => [.leave k.toNat]
  | _, _ => []

/-- A function of the host that is no probe. -/
def IsNoProbe (n : Native) : Prop := n ≠ .enterFunction ∧ n ≠ .leaveFunction

theorem told_of_isNoProbe {n : Native} (hn : n.IsNoProbe) (arguments : List Word) :
    n.told arguments = [] := by
  unfold told
  split
  · exact absurd rfl hn.1
  · exact absurd rfl hn.2
  · rfl

/-- The host that writes down what its probes are told. -/
def observed : Host Native (HostState × List Event) where
  type := type
  call n arguments memory s :=
    match n.call arguments memory s.1 with
    | .returned results memory state => .returned results memory (state, s.2 ++ n.told arguments)
    | .raised signal memory state => .raised signal memory (state, s.2 ++ n.told arguments)

/-- What is written down are notes of what probes are told. -/
theorem observed_eq_noting : observed = host.noting told := by
  rw [observed, Host.noting, Host.mk.injEq]
  refine ⟨rfl, ?_⟩
  funext n arguments memory s
  have hcall : host.call n arguments memory s.1 = n.call arguments memory s.1 := rfl
  rw [hcall]
  cases n.call arguments memory s.1 <;> rfl

/-- Writing down makes no difference to code. -/
theorem projects_observed : observed.Projects host Prod.fst := by
  rw [observed_eq_noting]
  exact Host.projects_noting host told

theorem observed_isTyped : observed.IsTyped := by
  intro n arguments memory s results memory' s' hlength hcall
  rw [observed] at hcall
  dsimp only at hcall
  cases hanswer : n.call arguments memory s.1 with
  | returned results' memory'' state =>
    rw [hanswer] at hcall
    injection hcall with hresults
    exact hresults ▸ host_isTyped n arguments memory s.1 _ _ _ hlength hanswer
  | raised signal memory'' state =>
    rw [hanswer] at hcall
    cases hcall

/-- What the recorder is told is what the probes are told. -/
theorem recorder_call (n : Native) (arguments : List Word) (memory : Memory) (state : HostState) :
    (n.call arguments memory state).Keeps
      (fun _ state' => state'.recorder = (n.told arguments).foldl record state.recorder)
      fun _ => True := by
  cases n <;> rcases arguments with _ | ⟨a, _ | ⟨b, _ | ⟨c, _ | ⟨d, rest⟩⟩⟩⟩ <;>
    first
    | exact rfl
    | exact ⟨rfl, trivial⟩

end Native

namespace Interpreter

/-! ### Environments -/

section

variable {η σ τ : Type}

/-- The environment with another host, and with room for so many calls less. -/
def Environment.under (env : Environment η τ) (host : Host η σ) (depth : Nat) : Environment η σ :=
  ⟨host, env.programs, env.table, env.address, env.cell, env.probes, env.maxDepth - depth⟩

/-- Which functions the host has and what they do makes no difference to what programs find. -/
theorem Agrees.under {l : Linkage η τ} {env : Environment η τ} (h : Agrees l env) {host : Host η σ}
    (htype : host.type = env.host.type) (htyped : host.IsTyped) (depth : Nat) :
    Agrees (l.under host depth) (env.under host depth) where
  host := rfl
  table := h.table
  maxDepth := congrArg (· - depth) h.maxDepth
  provides := fun home p hp => by
    obtain ⟨layout, hprovides⟩ := h.provides home p hp
    exact ⟨layout, hprovides.program, hprovides.valid, hprovides.describes, hprovides.type,
      hprovides.body, hprovides.noBody, hprovides.function, hprovides.address, hprovides.cell,
      hprovides.probes⟩
  only := h.only
  typed := htyped
  probes := fun home probes hprobes => by
    show host.type _ = _ ∧ host.type _ = _
    rw [htype]
    exact h.probes home probes hprobes

end

variable {env : Environment Native HostState} {l : Linkage Native HostState} {home index : Nat}
  {f : Function}

/-- All programs have the probes of the host, and none calls one of these itself. -/
structure Environment.HasNativeProbes (env : Environment Native HostState) : Prop where
  host : env.host = Native.host
  probes : ∀ (home : Nat) (p : Program), env.programs[home]? = some p →
    ∃ offset, env.probes home = some ⟨.enterFunction, .leaveFunction, offset⟩
  table : ∀ (a : Nat) (n : Native), env.table[a]? = some (some (.host n)) → n.IsNoProbe

/-- What the probes of a function are told: its index, counted from the offset of its program. -/
def Environment.number (env : Environment Native HostState) (home index : Nat) : Nat :=
  ((env.probes home).map fun probes => (UInt32.ofNat index + probes.offset).toNat).getD 0

namespace Environment.HasNativeProbes

variable (h : env.HasNativeProbes)

include h

theorem probes_of_function (hf : env.function? home index = some f) :
    ∃ offset, env.probes home = some ⟨.enterFunction, .leaveFunction, offset⟩ := by
  obtain ⟨p, hp, -⟩ := function?_eq_some.mp hf
  exact h.probes home p hp

/-- All that probes are told is written down. -/
theorem isWatched (hvalid : ∀ p ∈ env.programs, p.IsValid) (depth : Nat) :
    IsWatched (env.under Native.observed depth) Prod.snd env.number where
  valid := hvalid
  call := by
    intro a n ha arguments memory s
    show (Native.observed.call n arguments memory s).Keeps _ _
    rw [Native.observed]
    dsimp only
    rw [Native.told_of_isNoProbe (h.table a n ha), List.append_nil]
    cases n.call arguments memory s.1 with
    | returned results memory' state => exact rfl
    | raised signal memory' state => exact ⟨rfl, trivial⟩
  -- what is told is the number of the function, in the log and in the recorder alike
  enter := by
    intro home index f hf memory s
    obtain ⟨offset, hprobes⟩ := h.probes_of_function hf
    have hprobes' : (env.under Native.observed depth).probes home
        = some ⟨.enterFunction, .leaveFunction, offset⟩ := hprobes
    refine ⟨(s.1.enter (UInt32.ofNat index + offset).toNat,
      s.2 ++ [.enter (UInt32.ofNat index + offset).toNat]), ?_, ?_⟩
    · rw [Environment.runProbe, hprobes']
      rfl
    · rw [Environment.number, hprobes]
      rfl
  leave := by
    intro home index f hf memory s
    obtain ⟨offset, hprobes⟩ := h.probes_of_function hf
    have hprobes' : (env.under Native.observed depth).probes home
        = some ⟨.enterFunction, .leaveFunction, offset⟩ := hprobes
    refine ⟨(s.1.leave, s.2 ++ [.leave (UInt32.ofNat index + offset).toNat]), ?_, ?_⟩
    · rw [Environment.runProbe, hprobes']
      rfl
    · rw [Environment.number, hprobes]
      rfl

end Environment.HasNativeProbes

/-- What is written down is what the recorder was told. -/
theorem keeps_recorder (env : Environment Native HostState) (depth : Nat) (r : Recorder) :
    (env.under Native.observed depth).Keeps fun s => s.1.recorder = s.2.foldl record r := by
  have htold : Native.host.IsTold Native.told HostState.recorder record := Native.recorder_call
  rw [Native.observed_eq_noting]
  exact fun n arguments memory _ hs => htold.noting hs n arguments memory

/-- What a function of an image writes down, and its recorder is told, from its start to its end: a
whole call if it returns, and else functions are under way, the outermost of which it is. -/
theorem Agrees.records (hag : Agrees l env) (hprobes : env.HasNativeProbes)
    (hf : env.function? home index = some f) {type : FuncType} {body : Body}
    (hbody : l.body? home index = some (type, body)) {depth n : Nat} {arguments : List Word}
    {memory : Memory} {state : HostState} {r : Halt (HostState × List Event)}
    (hends : Ends (Machine.stepper (l.under Native.observed depth)) n
      ⟨.start home type body arguments, [], 0, memory, (state, [])⟩ r) :
    r.2.2.1.recorder = r.2.2.2.foldl record state.recorder ∧ Numbered env env.number r.2.2.2 ∧
      ((∃ results, r.1 = .returned results) ∧ IsCall (env.number home index) r.2.2.2 ∨
        (∀ results, r.1 ≠ .returned results) ∧
          ∃ ks, Pending ks r.2.2.2 ∧ ks.getLast? = some (env.number home index)) := by
  have hag' : Agrees (l.under Native.observed depth) (env.under Native.observed depth) :=
    hag.under (by rw [hprobes.host]; rfl) Native.observed_isTyped depth
  obtain ⟨p, hp, hfunction⟩ := function?_eq_some.mp hf
  obtain ⟨layout, hprovides⟩ := hag'.provides home p hp
  obtain ⟨codes, hcodes, hbody'⟩ := hprovides.body index f hfunction
  obtain ⟨rfl, rfl⟩ := Prod.mk.inj (Option.some.inj (hbody.symm.trans hbody'))
  -- the code does what the interpreter does from the start of the function
  have hinterpreted := (endsFrom_iff hag'
    (arrives_start hag' hprovides hfunction hcodes .nil arguments)).mpr ⟨n, hends⟩
  have hvalid : ∀ p ∈ env.programs, p.IsValid := by
    intro p hp
    obtain ⟨j, hj⟩ := List.mem_iff_getElem?.mp hp
    obtain ⟨_, hprovides⟩ := hag.provides j p hj
    exact hprovides.valid
  obtain ⟨told, htold, hnumbered, hcall⟩ :=
    (hprobes.isWatched hvalid depth).endsFrom hf hinterpreted
  obtain rfl : r.2.2.2 = told := htold
  have hrecorder : state.recorder = ([] : List Event).foldl record state.recorder := rfl
  exact ⟨(keeps_recorder env depth state.recorder).endsFrom
    ((keeps_recorder env depth state.recorder).start hrecorder home index f arguments [] memory)
    hinterpreted, hnumbered, hcall⟩

/-- During a call that returns, to the outside or to whatever callers, the probes are told a whole
call under the number of the function. -/
theorem Agrees.tells (hag : Agrees l env) (hprobes : env.HasNativeProbes)
    (hf : env.function? home index = some f) {type : FuncType} {body : Body}
    (hbody : l.body? home index = some (type, body)) {arguments : List Word} {callers : List Frame}
    {depth : Nat} {memory memory' : Memory} {state state' : HostState}
    (h : Machine.Returns l callers.length ⟨.start home type body arguments, callers, depth,
      memory, state⟩ memory' state') :
    ∃ events, IsCall (env.number home index) events ∧
      state'.recorder = events.foldl record state.recorder ∧
      Machine.Returns (l.withHost Native.observed) callers.length
        ⟨.start home type body arguments, callers, depth, memory, (state, [])⟩ memory'
        (state', events) := by
  have hprojects : Native.observed.Projects l.host Prod.fst := by
    rw [hag.host, hprobes.host]
    exact Native.projects_observed
  -- the host that writes down sees the same call
  obtain ⟨⟨final, events⟩, hreturns, rfl⟩ := Machine.Returns.lift
    (m := ⟨.start home type body arguments, callers, depth, memory, (state, [])⟩) hprojects
    (by rw [Machine.atop, List.append_nil]; exact h)
  -- what lies beneath the call makes no difference to it either
  have halone : Machine.Returns (l.withHost Native.observed) callers.length
      (Machine.atop id callers depth ⟨.start home type body arguments, [], 0, memory, (state, [])⟩)
      memory' (final, events) := by
    rw [Machine.atop, Nat.zero_add]
    exact hreturns
  obtain ⟨n, results, s, hends, rfl⟩ := halone.ends (Host.projects_self Native.observed) (.inr rfl)
  obtain ⟨hrecorder, -, ⟨-, hcall⟩ | ⟨hnot, -⟩⟩ := hag.records hprobes hf hbody hends
  · exact ⟨events, hcall, hrecorder, hreturns⟩
  · exact absurd rfl (hnot results)

end Interpreter

end MutationAnalysis
