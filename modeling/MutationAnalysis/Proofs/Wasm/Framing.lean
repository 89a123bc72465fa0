/-
Code runs the same above any callers.

What lies beneath a call is not touched before the call returns.  So a machine that has callers
beneath it does what it does without them (`Machine.atop`), with less room for calls, until the call
returns to them; and a host that keeps more than another and answers alike makes no difference to
code either (`Host.Projects`).

* `Machine.framed_step`: a step above callers and the step without them;
* `Machine.Returns`: the call under way returns to its callers;
* `Machine.Returns.ends`: what a call leaves above callers, it ends with on its own;
* `Machine.step_atop`: a step is the same with a host that keeps more.
-/
import MutationAnalysis.Proofs.Wasm.Execution

namespace MutationAnalysis.Wasm

variable {η σ τ : Type}

/-! ### Hosts that keep more -/

/-- An answer with less of what the host keeps. -/
def HostAnswer.map (g : σ → τ) : HostAnswer σ → HostAnswer τ
  | .returned results memory state => .returned results memory (g state)
  | .raised signal memory state => .raised signal memory (g state)

/-- A host answers as another does, which keeps less. -/
structure Host.Projects (rich : Host η σ) (host : Host η τ) (g : σ → τ) : Prop where
  type_eq : rich.type = host.type
  call : ∀ name arguments memory state,
    (rich.call name arguments memory state).map g = host.call name arguments memory (g state)

theorem Host.projects_self (host : Host η σ) : host.Projects host id where
  type_eq := rfl
  call := fun name arguments memory state => by
    rw [id, HostAnswer.map.eq_def]
    cases host.call name arguments memory state <;> rfl

/-- The linkage with another host. -/
def Linkage.withHost (l : Linkage η τ) (host : Host η σ) : Linkage η σ :=
  ⟨host, l.instances, l.table, l.cells, l.maxDepth⟩

/-- The linkage with another host, and with room for so many calls less. -/
def Linkage.under (l : Linkage η τ) (host : Host η σ) (depth : Nat) : Linkage η σ :=
  { l.withHost host with maxDepth := l.maxDepth - depth }

namespace Machine

/-- The machine above callers, so many in number, with less of what its host keeps. -/
def atop (g : σ → τ) (callers : List Frame) (depth : Nat) (m : Machine σ) : Machine τ :=
  ⟨m.frame, m.callers ++ callers, m.depth + depth, m.memory, g m.state⟩

/-- What a machine does on its own, and what it does above callers: it returns to the last of them
where it would end on its own. -/
inductive Framed (g : σ → τ) (callers : List Frame) (depth : Nat) :
    Transition σ → Transition τ → Prop
  | next {m : Machine σ} (hdepth : depth = 0 ∨ m.depth = m.callers.length) :
      Framed g callers depth (.next m) (.next (m.atop g callers depth))
  | halt {e : Ending} {memory : Memory} {state : σ} (he : ∀ results, e ≠ .returned results) :
      Framed g callers depth (.halt e memory state) (.halt e memory (g state))
  | last {results : List Word} {memory : Memory} {state : σ} (hnone : callers = []) :
      Framed g callers depth (.halt (.returned results) memory state)
        (.halt (.returned results) memory (g state))
  | back {results : List Word} {m : Machine τ} {memory : Memory} {state : σ} {caller : Frame}
      (hcallers : callers = caller :: m.callers) (hmemory : m.memory = memory)
      (hstate : m.state = g state) :
      Framed g callers depth (.halt (.returned results) memory state) (.next m)

variable {l : Linkage η τ} {rich : Host η σ} {g : σ → τ} {callers : List Frame} {depth : Nat}
  {m : Machine σ}

theorem giveBack_short (h : (m.frame.operands.take m.frame.results).length < m.frame.results) :
    m.giveBack = m.halt .stuck := if_pos h

theorem giveBack_last (h : ¬ (m.frame.operands.take m.frame.results).length < m.frame.results)
    (hcallers : m.callers = []) :
    m.giveBack = m.halt (.returned (m.frame.operands.take m.frame.results)) := by
  unfold giveBack
  dsimp only
  rw [if_neg h, hcallers]

theorem giveBack_caller {caller : Frame} {below : List Frame}
    (h : ¬ (m.frame.operands.take m.frame.results).length < m.frame.results)
    (hcallers : m.callers = caller :: below) :
    m.giveBack = .next ⟨{ caller with
      operands := m.frame.operands.take m.frame.results ++ caller.operands }, below, m.depth - 1,
      m.memory, m.state⟩ := by
  unfold giveBack
  dsimp only
  rw [if_neg h, hcallers]

section

variable (hdepth : depth = 0 ∨ m.depth = m.callers.length)

include hdepth

theorem framed_giveBack : Framed g callers depth m.giveBack (m.atop g callers depth).giveBack := by
  have hover : (m.atop g callers depth).callers = m.callers ++ callers := rfl
  by_cases hshort : (m.frame.operands.take m.frame.results).length < m.frame.results
  · rw [giveBack_short hshort, giveBack_short (m := m.atop g callers depth) hshort]
    exact .halt fun _ h => Ending.noConfusion h
  · cases hm : m.callers with
    | nil =>
      rw [hm, List.nil_append] at hover
      rw [giveBack_last hshort hm]
      cases hcallers : callers with
      | nil =>
        rw [hcallers] at hover
        rw [giveBack_last (m := m.atop g [] depth) hshort hover]
        exact .last rfl
      | cons caller below =>
        rw [hcallers] at hover
        rw [giveBack_caller (m := m.atop g (caller :: below) depth) hshort hover]
        exact .back rfl rfl rfl
    | cons caller above =>
      -- a caller of the machine's own goes on
      rw [hm, List.cons_append] at hover
      rw [giveBack_caller hshort hm, giveBack_caller (m := m.atop g callers depth) hshort hover]
      rw [hm, List.length_cons] at hdepth
      have hpred : m.depth + depth - 1 = m.depth - 1 + depth := by omega
      dsimp only [atop]
      rw [hpred]
      refine .next ?_
      show depth = 0 ∨ m.depth - 1 = above.length
      omega

theorem framed_branch (target : Nat) :
    Framed g callers depth (m.branch target) ((m.atop g callers depth).branch target) := by
  unfold branch
  dsimp only [atop]
  split
  · exact framed_giveBack hdepth
  · exact .next hdepth

theorem framed_setLocal (index : Nat) (value : Word) (code : Code) (operands : List Word) :
    Framed g callers depth (m.setLocal index value code operands)
      ((m.atop g callers depth).setLocal index value code operands) := by
  obtain ⟨⟨_, _, _, _, _, _⟩, _, _, _, _⟩ := m
  exact .next hdepth

theorem framed_store (address : Nat) (value : Word) (code : Code) (operands : List Word) :
    Framed g callers depth (m.store address value code operands)
      ((m.atop g callers depth).store address value code operands) := by
  obtain ⟨⟨_, _, _, _, _, _⟩, _, _, memory, _⟩ := m
  unfold store
  dsimp only [atop]
  split
  · exact .next hdepth
  · exact .halt nofun

theorem framed_enterConstruct (body onBranch onEnd : Code) (operands : List Word) :
    Framed g callers depth (m.enterConstruct body onBranch onEnd operands)
      ((m.atop g callers depth).enterConstruct body onBranch onEnd operands) :=
  .next hdepth

variable (hhost : rich.Projects l.host g)

include hhost

theorem framed_enter (ref : FuncRef η) (arguments : List Word) (code : Code)
    (operands : List Word) :
    Framed g callers depth (m.enter (l.under rich depth) ref arguments code operands)
      ((m.atop g callers depth).enter l ref arguments code operands) := by
  cases ref with
  | host name =>
    have hcall := hhost.call name arguments m.memory m.state
    unfold enter
    dsimp only [atop, Linkage.under, Linkage.withHost]
    rw [← hcall]
    cases rich.call name arguments m.memory m.state with
    | returned results memory state => exact .next hdepth
    | raised signal memory state => exact .halt nofun
  | defined home index =>
    unfold enter
    dsimp only
    have hbody : (l.under rich depth).body? home index = l.body? home index := rfl
    -- the upper machine has fewer calls under way, and room for just as many fewer
    have hroom : m.depth < (l.under rich depth).maxDepth
        ↔ (m.atop g callers depth).depth < l.maxDepth := by
      show m.depth < l.maxDepth - depth ↔ m.depth + depth < l.maxDepth
      omega
    rw [hbody]
    cases l.body? home index with
    | none => exact .halt nofun
    | some found =>
      obtain ⟨type, body⟩ := found
      dsimp only
      by_cases hlt : m.depth < (l.under rich depth).maxDepth
      · rw [if_pos hlt, if_pos (hroom.mp hlt)]
        have hsucc : (m.atop g callers depth).depth + 1 = m.depth + 1 + depth := by
          show m.depth + depth + 1 = _
          omega
        rw [hsucc]
        exact .next (hdepth.imp_right fun hd => by rw [hd, List.length_cons])
      · rw [if_neg hlt, if_neg fun hlt' => hlt (hroom.mpr hlt')]
        exact .halt nofun

theorem framed_callWith (ref : FuncRef η) (type : FuncType) (code : Code) (operands : List Word) :
    Framed g callers depth (m.callWith (l.under rich depth) ref type code operands)
      ((m.atop g callers depth).callWith l ref type code operands) := by
  unfold callWith
  dsimp only
  split
  · exact .halt nofun
  · exact framed_enter hdepth hhost ref _ code _

omit hdepth in
theorem type?_under (ref : FuncRef η) : (l.under rich depth).type? ref = l.type? ref := by
  cases ref with
  | host name => exact congrArg some (congrFun hhost.type_eq name)
  | defined home index => rfl

theorem framed_callAddress (type : FuncType) (address : Nat) (code : Code) (operands : List Word) :
    Framed g callers depth (m.callAddress (l.under rich depth) type address code operands)
      ((m.atop g callers depth).callAddress l type address code operands) := by
  unfold callAddress
  have htable : (l.under rich depth).table = l.table := rfl
  simp only [htable, type?_under hhost]
  split
  · exact .halt nofun
  · exact .halt nofun
  · split
    · exact framed_callWith hdepth hhost _ type code operands
    · exact .halt nofun

theorem framed_stepOp (o : Op) (rest : Code) :
    Framed g callers depth (m.stepOp (l.under rich depth) o rest)
      ((m.atop g callers depth).stepOp l o rest) := by
  unfold stepOp
  have hframe : (m.atop g callers depth).frame = m.frame := rfl
  have hmemory : (m.atop g callers depth).memory = m.memory := rfl
  have hinstances : (l.under rich depth).instances = l.instances := rfl
  have hglobal : ∀ home index, (l.under rich depth).global? home index = l.global? home index :=
    fun _ _ => rfl
  rw [hframe, hmemory]
  -- both machines look at the same frame, so each instruction takes the same branch in both
  cases o with
  | const value => exact .next hdepth
  | localGet index =>
    dsimp only
    split
    · exact .next hdepth
    · exact .halt nofun
  | localSet index =>
    cases m.frame.operands with
    | nil => exact .halt nofun
    | cons value operands => exact framed_setLocal hdepth _ _ _ _
  | drop | eqz =>
    cases m.frame.operands with
    | nil => exact .halt nofun
    | cons value operands => exact .next hdepth
  | binary op =>
    match m.frame.operands with
    | [] | [_] => exact .halt nofun
    | b :: a :: operands =>
      dsimp only
      split
      · exact .next hdepth
      · exact .halt nofun
  | load =>
    cases m.frame.operands with
    | nil => exact .halt nofun
    | cons address operands =>
      dsimp only
      split
      · exact .next hdepth
      · exact .halt nofun
  | store =>
    match m.frame.operands with
    | [] | [_] => exact .halt nofun
    | value :: address :: operands => exact framed_store hdepth _ _ _ _
  | globalGet index =>
    dsimp only
    rw [hglobal]
    split
    · exact .next hdepth
    · exact .halt nofun
  | call function =>
    dsimp only
    rw [hinstances]
    split
    · exact .halt nofun
    · rw [type?_under hhost]
      split
      · exact .halt nofun
      · exact framed_callWith hdepth hhost _ _ _ _
  | callIndirect type =>
    cases m.frame.operands with
    | nil => exact .halt nofun
    | cons address operands =>
      dsimp only
      rw [hinstances]
      split
      · exact .halt nofun
      · exact framed_callAddress hdepth hhost _ _ _ _
  | ret => exact framed_giveBack hdepth
  | unreachable => exact .halt nofun
  | br target => exact framed_branch hdepth target
  | brTable targets fallback =>
    cases m.frame.operands with
    | nil => exact .halt nofun
    | cons index operands =>
      have hm : depth = 0 ∨ ({ m with frame := { m.frame with operands } } : Machine σ).depth
          = ({ m with frame := { m.frame with operands } } : Machine σ).callers.length := hdepth
      exact framed_branch hm _

/-- A step above callers is the step without them, until the call returns to them. -/
theorem framed_step : Framed g callers depth (m.step (l.under rich depth))
    ((m.atop g callers depth).step l) := by
  unfold step
  have hframe : (m.atop g callers depth).frame = m.frame := rfl
  rw [hframe]
  split
  · exact framed_stepOp hdepth hhost _ _
  · exact framed_enterConstruct hdepth _ _ _ _
  · exact framed_enterConstruct hdepth _ _ _ _
  · split
    · exact .halt nofun
    · exact framed_enterConstruct hdepth _ _ _ _
  · split
    · exact framed_giveBack hdepth
    · exact .next hdepth

end

/-! ### Calls that return -/

/-- The call under way returns to so many callers, or from the outermost function, and leaves the
memory and the state of the host. -/
inductive Returns (l : Linkage η σ) (callers : Nat) : Machine σ → Memory → σ → Prop
  | last {m : Machine σ} {results : List Word} {memory : Memory} {state : σ}
      (h : m.step l = .halt (.returned results) memory state) : Returns l callers m memory state
  | back {m m' : Machine σ} (h : m.step l = .next m') (hcallers : m'.callers.length < callers) :
      Returns l callers m m'.memory m'.state
  | next {m m' : Machine σ} {memory : Memory} {state : σ} (h : m.step l = .next m')
      (hcallers : callers ≤ m'.callers.length) (hreturns : Returns l callers m' memory state) :
      Returns l callers m memory state

theorem framed_of_step (hhost : rich.Projects l.host g)
    (hdepth : depth = 0 ∨ m.depth = m.callers.length)
    {t : Transition τ} (hstep : (m.atop g callers depth).step l = t) :
    Framed g callers depth (m.step (l.under rich depth)) t := by
  rw [← hstep]
  exact framed_step hdepth hhost

/-- A call that returns to callers ends with the same on its own. -/
theorem Returns.ends (hhost : rich.Projects l.host g)
    (hdepth : depth = 0 ∨ m.depth = m.callers.length) {memory : Memory} {state : τ}
    (h : Returns l callers.length (m.atop g callers depth) memory state) :
    ∃ n results s, Ends (stepper (l.under rich depth)) n m (.returned results, memory, s) ∧
      g s = state := by
  generalize hover : m.atop g callers depth = x at h
  induction h generalizing m with
  | last hstep =>
    subst hover
    have hframed := framed_of_step hhost hdepth hstep
    generalize hm : m.step (l.under rich depth) = next at hframed
    cases hframed with
    | halt he => exact absurd rfl (he _)
    | last => exact ⟨1, _, _, .halt (stepper_eq_inr.mpr hm), rfl⟩
  | back hstep hlt =>
    subst hover
    have hframed := framed_of_step hhost hdepth hstep
    generalize hm : m.step (l.under rich depth) = next at hframed
    cases hframed with
    | next =>
      -- then the callers would still be there
      simp only [atop, List.length_append] at hlt
      omega
    | back _ hmemory hstate =>
      subst hmemory
      exact ⟨1, _, _, .halt (stepper_eq_inr.mpr hm), hstate.symm⟩
  | next hstep hle _ ih =>
    subst hover
    have hframed := framed_of_step hhost hdepth hstep
    generalize hm : m.step (l.under rich depth) = next at hframed
    cases hframed with
    | next hdepth' =>
      obtain ⟨n, results, s, hends, hs⟩ := ih hdepth' rfl
      exact ⟨n + 1, results, s, .next (stepper_eq_inl.mpr hm) hends, hs⟩
    | back hcallers =>
      -- the call has not come back to its callers yet
      rw [hcallers, List.length_cons] at hle
      omega

/-! ### The same with a host that keeps more -/

/-- A transition with less of what the host keeps. -/
def lessen (g : σ → τ) : Transition σ → Transition τ
  | .next m => .next (m.atop g [] 0)
  | .halt e memory state => .halt e memory (g state)

/-- A machine does the same with a host that keeps more. -/
theorem step_atop (hhost : rich.Projects l.host g) (m : Machine σ) :
    (m.atop g [] 0).step l = lessen g (m.step (l.withHost rich)) := by
  have hframed : Framed g [] 0 (m.step (l.withHost rich)) ((m.atop g [] 0).step l) :=
    framed_step (.inl rfl) hhost
  generalize (m.atop g [] 0).step l = next, m.step (l.withHost rich) = next' at hframed ⊢
  cases hframed with
  | next | halt | last => rfl
  | back hcallers => cases hcallers

/-- A step that goes on does so with a host that keeps more. -/
theorem exists_step_next_of_atop (hhost : rich.Projects l.host g) {x : Machine τ}
    (h : (m.atop g [] 0).step l = .next x) :
    ∃ m', m.step (l.withHost rich) = .next m' ∧ m'.atop g [] 0 = x := by
  rw [step_atop hhost] at h
  cases hm : m.step (l.withHost rich) with
  | next m' =>
    rw [hm] at h
    exact ⟨m', rfl, Transition.next.inj h⟩
  | halt =>
    rw [hm] at h
    cases h

/-- A step that halts does so with a host that keeps more. -/
theorem exists_step_halt_of_atop (hhost : rich.Projects l.host g) {e : Ending} {memory : Memory}
    {state : τ} (h : (m.atop g [] 0).step l = .halt e memory state) :
    ∃ s, m.step (l.withHost rich) = .halt e memory s ∧ g s = state := by
  rw [step_atop hhost] at h
  cases hm : m.step (l.withHost rich) with
  | next =>
    rw [hm] at h
    cases h
  | halt e' memory' s =>
    rw [hm] at h
    obtain ⟨rfl, rfl, hs⟩ := Transition.halt.inj h
    exact ⟨s, rfl, hs⟩

/-- What a machine ends with, it ends with where the host keeps more. -/
theorem ends_lift (hhost : rich.Projects l.host g) {n : Nat} {r : Halt τ}
    (h : Ends (stepper l) n (m.atop g [] 0) r) :
    ∃ s, Ends (stepper (l.withHost rich)) n m (r.1, r.2.1, s) ∧ g s = r.2.2 := by
  generalize hover : m.atop g [] 0 = x at h
  induction h generalizing m with
  | halt hstep =>
    subst hover
    obtain ⟨s, hm, hs⟩ := exists_step_halt_of_atop hhost (stepper_eq_inr.mp hstep)
    exact ⟨s, .halt (stepper_eq_inr.mpr hm), hs⟩
  | next hstep _ ih =>
    subst hover
    obtain ⟨m', hm, hm'⟩ := exists_step_next_of_atop hhost (stepper_eq_inl.mp hstep)
    obtain ⟨s, hends, hs⟩ := ih hm'
    exact ⟨s, .next (stepper_eq_inl.mpr hm) hends, hs⟩

/-- A call that returns does so with a host that keeps more. -/
theorem Returns.lift (hhost : rich.Projects l.host g) {count : Nat} {memory : Memory} {state : τ}
    (h : Returns l count (m.atop g [] 0) memory state) :
    ∃ s, Returns (l.withHost rich) count m memory s ∧ g s = state := by
  generalize hover : m.atop g [] 0 = x at h
  induction h generalizing m with
  | last hstep =>
    subst hover
    obtain ⟨s, hm, hs⟩ := exists_step_halt_of_atop hhost hstep
    exact ⟨s, .last hm, hs⟩
  | back hstep hlt =>
    subst hover
    obtain ⟨m', hm, rfl⟩ := exists_step_next_of_atop hhost hstep
    simp only [atop, List.append_nil] at hlt
    exact ⟨m'.state, .back hm hlt, rfl⟩
  | next hstep hle _ ih =>
    subst hover
    obtain ⟨m', hm, rfl⟩ := exists_step_next_of_atop hhost hstep
    simp only [atop, List.append_nil] at hle
    obtain ⟨s, hreturns, hs⟩ := ih rfl
    exact ⟨s, .next hm hle hreturns, hs⟩

end Machine

end MutationAnalysis.Wasm
