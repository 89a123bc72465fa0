/-
What running code keeps.

Code changes the memory by storing words; only functions of the host change the state of the host or
raise signals.  So whatever stores keep, and all functions of the host that code can get at, every
step keeps (`Machine.keeps_step`), and so does every call.

* `Linkage.keeps_call`: what holds of the memory and of the host's state before a call holds after
  it, even if the call does not end in time;
* `Linkage.Finishes.keeps`: what holds before a call that ends holds after it.
-/
import MutationAnalysis.Proofs.Wasm.Effects

namespace MutationAnalysis.Wasm

variable {η σ : Type} {l : Linkage η σ} {P : Memory → σ → Prop} {Q : Signal → Prop} {m : Machine σ}

/-- What holds of memory and state holds after a function of the host, and one that raises
a signal raises such a one. -/
def HostAnswer.Keeps (P : Memory → σ → Prop) (Q : Signal → Prop) : HostAnswer σ → Prop
  | .returned _ memory state => P memory state
  | .raised signal memory state => P memory state ∧ Q signal

theorem HostAnswer.Keeps.imp {P' : Memory → σ → Prop} {Q' : Signal → Prop} {x : HostAnswer σ}
    (h : x.Keeps P Q) (hP : ∀ memory state, P memory state → P' memory state)
    (hQ : ∀ signal, Q signal → Q' signal) : x.Keeps P' Q' := by
  cases x with
  | returned results memory state => exact hP memory state h
  | raised signal memory state => exact ⟨hP memory state h.1, hQ signal h.2⟩

/-- The functions of the host that code gets at keep what holds of memory and state, and raise only
such signals; and so do words that are put where there is room for them. -/
structure Linkage.Keeps (l : Linkage η σ) (P : Memory → σ → Prop) (Q : Signal → Prop) : Prop where
  host : ∀ name, l.Offers name → ∀ arguments memory state, P memory state →
    (l.host.call name arguments memory state).Keeps P Q
  store : ∀ memory state address value, P memory state → P (memory.putWord address value) state

/-- So do their answers. -/
theorem Linkage.Keeps.of_call_eq (h : l.Keeps P Q) {name : η} (hoffers : l.Offers name)
    {arguments : List Word} {memory : Memory} {state : σ} (hstart : P memory state)
    {x : HostAnswer σ} (hanswer : l.host.call name arguments memory state = x) : x.Keeps P Q := by
  rw [← hanswer]
  exact h.host name hoffers arguments memory state hstart

/-- What holds of memory and state holds after a transition, and one that raises
a signal raises such a one. -/
def Transition.Keeps (P : Memory → σ → Prop) (Q : Signal → Prop) : Transition σ → Prop
  | .next m => P m.memory m.state
  | .halt e memory state => P memory state ∧ ∀ signal, e = .raised signal → Q signal

namespace Machine

theorem Effect.keeps {t : Transition σ} (heffect : m.Effect l t) (h : l.Keeps P Q)
    (hm : P m.memory m.state) : t.Keeps P Q := by
  cases heffect with
  | stop he => exact ⟨hm, fun signal hsignal => absurd hsignal (he signal)⟩
  | goOn | call | back => exact hm
  | store => exact h.store _ _ _ _ hm
  | answer _ _ hoffers hanswer => exact h.of_call_eq hoffers hm hanswer
  | raise _ _ hoffers hanswer =>
    have hraised := h.of_call_eq hoffers hm hanswer
    refine ⟨hraised.1, fun signal heq => ?_⟩
    obtain rfl := Ending.raised.inj heq
    exact hraised.2

theorem keeps_step (h : l.Keeps P Q) (hm : P m.memory m.state) : (m.step l).Keeps P Q :=
  effect_step.keeps h hm

/-- The memory and the state of the host in the machine, or left by it. -/
def leftOf : Machine σ ⊕ Halt σ → Memory × σ
  | .inl m => (m.memory, m.state)
  | .inr r => r.2

/-- What every step keeps, every run keeps, whether or not it ends in time. -/
theorem keeps_run (h : l.Keeps P Q) (hm : P m.memory m.state) (steps : Nat) :
    P (run l steps m).memory (run l steps m).state ∧
      ∀ signal, (run l steps m).ending = .raised signal → Q signal := by
  induction steps generalizing m with
  | zero => exact ⟨hm, fun signal heq => Ending.noConfusion heq⟩
  | succ steps ih =>
    have hkeeps := keeps_step h hm
    rw [run_succ]
    cases hnext : m.step l with
    | next m' =>
      rw [hnext] at hkeeps
      exact ih hkeeps
    | halt e memory state =>
      rw [hnext] at hkeeps
      exact hkeeps

/-- What every step keeps holds wherever they lead. -/
theorem keeps_leads (h : l.Keeps P Q) {x y : Machine σ ⊕ Halt σ} (hleads : Leads (stepper l) x y)
    (hx : P (leftOf x).1 (leftOf x).2) : P (leftOf y).1 (leftOf y).2 := by
  induction hleads with
  | refl => exact hx
  | @step m y _ ih =>
    have hkeeps := keeps_step h (m := m) hx
    refine ih ?_
    rw [stepper]
    cases hnext : m.step l with
    | next m' =>
      rw [hnext] at hkeeps
      exact hkeeps
    | halt e memory state =>
      rw [hnext] at hkeeps
      exact hkeeps.1

/-- A run goes beyond what its steps lead to, or stops on the way there. -/
theorem run_of_leads {R : σ → σ → Prop} (hkeeps : ∀ state, l.Keeps (fun _ => R state) Q)
    (hrefl : ∀ state, R state state) {x : Machine σ ⊕ Halt σ}
    (hleads : Leads (stepper l) (.inl m) x) (steps : Nat) :
    R (leftOf x).2 (run l steps m).state ∨ R (run l steps m).state (leftOf x).2 := by
  induction steps generalizing m with
  | zero => exact .inr (keeps_leads (hkeeps m.state) hleads (hrefl m.state))
  | succ steps ih =>
    cases hleads with
    | refl => exact .inl (keeps_run (hkeeps m.state) (hrefl m.state) (steps + 1)).1
    | step hleads =>
      rw [run_succ]
      rw [stepper] at hleads
      cases hnext : m.step l with
      | next m' =>
        rw [hnext] at hleads
        exact ih hleads
      | halt e memory state =>
        rw [hnext] at hleads
        cases hleads with
        | refl => exact .inl (hrefl state)

end Machine

namespace Linkage

variable {ref : FuncRef η} {arguments : List Word} {memory : Memory} {state : σ}

/-- What the host's functions keep that code gets at, a call keeps,
whether or not it ends in time. -/
theorem keeps_call (h : l.Keeps P Q) (hstart : P memory state)
    (hhost : ∀ name, ref = .host name → (l.host.call name arguments memory state).Keeps P Q)
    (steps : Nat) :
    P (l.call steps ref arguments memory state).memory
      (l.call steps ref arguments memory state).state ∧
      ∀ signal, (l.call steps ref arguments memory state).ending = .raised signal → Q signal := by
  cases ref with
  | host name =>
    have hcall := hhost name rfl
    rw [call]
    cases hanswer : l.host.call name arguments memory state with
    | returned results memory' state' =>
      rw [hanswer] at hcall
      exact ⟨hcall, fun signal heq => Ending.noConfusion heq⟩
    | raised signal memory' state' =>
      rw [hanswer] at hcall
      refine ⟨hcall.1, fun signal' heq => ?_⟩
      obtain rfl := Ending.raised.inj heq
      exact hcall.2
  | defined home index =>
    cases hbody : l.body? home index with
    | none =>
      simp only [call, hbody]
      exact ⟨hstart, fun signal heq => Ending.noConfusion heq⟩
    | some body =>
      obtain ⟨type, body⟩ := body
      by_cases hdepth : 0 < l.maxDepth
      · rw [call_defined hbody hdepth]
        exact Machine.keeps_run h hstart steps
      · simp only [call, hbody, if_neg hdepth]
        exact ⟨hstart, fun signal heq => Ending.noConfusion heq⟩

/-- What holds before a call of a function that ends holds after it. -/
theorem Finishes.keeps {home index : Nat} {r : Halt σ}
    (hfinishes : l.Finishes (.defined home index) arguments memory state r) (h : l.Keeps P Q)
    (hstart : P memory state) : P r.2.1 r.2.2 ∧ ∀ signal, r.1 = .raised signal → Q signal := by
  obtain ⟨n, hcall⟩ := hfinishes
  have hhost : ∀ name, FuncRef.defined home index = .host name →
      (l.host.call name arguments memory state).Keeps P Q := fun name heq => nomatch heq
  have hkeeps := keeps_call h hstart hhost (n + 0)
  rw [hcall 0] at hkeeps
  exact hkeeps

end Linkage

end MutationAnalysis.Wasm
