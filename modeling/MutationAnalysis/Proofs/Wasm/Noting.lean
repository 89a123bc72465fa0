/-
Hosts that note the calls of their functions.

A host can note something of every call of its functions and do all else as before (`Host.noting`).
Code cannot tell such a host from the one without notes, so the run with notes is the run itself,
and shows what happens in it.  Where all that the host's functions do to a part of its state is told
by their notes, the notes of a call tell what the whole call does to that part.

* `Linkage.call_withHost`: a call is the same with a host that keeps more;
* `Linkage.call_noting`: what the notes of a call tell.
-/
import MutationAnalysis.Proofs.Wasm.Framing
import MutationAnalysis.Proofs.Wasm.Preservation

namespace MutationAnalysis.Wasm

variable {η σ τ α β : Type}

/-! ### Runs of hosts that keep more -/

/-- What a run leaves, with less of what the host keeps. -/
def Run.map (g : σ → τ) (r : Run σ) : Run τ := ⟨r.ending, r.memory, g r.state, r.stepsLeft⟩

variable {l : Linkage η τ} {rich : Host η σ} {g : σ → τ}

/-- A run is the same with a host that keeps more. -/
theorem Machine.run_atop (hhost : rich.Projects l.host g) (steps : Nat) (m : Machine σ) :
    run l steps (m.atop g [] 0) = (run (l.withHost rich) steps m).map g := by
  induction steps generalizing m with
  | zero => rfl
  | succ steps ih =>
    rw [run_succ, run_succ, step_atop hhost]
    cases m.step (l.withHost rich) with
    | next m' => exact ih m'
    | halt e memory state => rfl

/-- A call is the same with a host that keeps more. -/
theorem Linkage.call_withHost (hhost : rich.Projects l.host g) (steps : Nat) (ref : FuncRef η)
    (arguments : List Word) (memory : Memory) (state : σ) :
    l.call steps ref arguments memory (g state)
      = ((l.withHost rich).call steps ref arguments memory state).map g := by
  cases ref with
  | host name =>
    have hcall := hhost.call name arguments memory state
    have hrich : (l.withHost rich).host = rich := rfl
    simp only [call, ← hcall, hrich]
    cases rich.call name arguments memory state <;> rfl
  | defined home index =>
    have hsame : (l.withHost rich).body? home index = l.body? home index := rfl
    cases hbody : l.body? home index with
    | none =>
      rw [hbody] at hsame
      simp only [call, hbody, hsame]
      rfl
    | some body =>
      obtain ⟨type, body⟩ := body
      rw [hbody] at hsame
      by_cases hdepth : 0 < l.maxDepth
      · rw [call_defined hbody hdepth, call_defined hsame hdepth]
        exact Machine.run_atop hhost steps ⟨.start home type body arguments, [], 0, memory, state⟩
      · have hroom : ¬ 0 < (l.withHost rich).maxDepth := hdepth
        simp only [call, hbody, hsame, if_neg hdepth, if_neg hroom]
        rfl

/-! ### Notes -/

/-- The host that notes something of every call of its functions, and does all else as before. -/
def Host.noting (host : Host η τ) (note : η → List Word → List α) : Host η (τ × List α) where
  type := host.type
  call name arguments memory s :=
    match host.call name arguments memory s.1 with
    | .returned results memory state => .returned results memory (state, s.2 ++ note name arguments)
    | .raised signal memory state => .raised signal memory (state, s.2 ++ note name arguments)

variable {host : Host η τ} {note : η → List Word → List α}

/-- Notes make no difference to code. -/
theorem Host.projects_noting (host : Host η τ) (note : η → List Word → List α) :
    (host.noting note).Projects host Prod.fst where
  type_eq := rfl
  call := fun name arguments memory s => by
    rw [noting]
    dsimp only
    cases host.call name arguments memory s.1 <;> rfl

/-- All that the functions of the host do to a part of its state is told by their notes. -/
def Host.IsTold (host : Host η τ) (note : η → List Word → List α) (part : τ → β)
    (tell : β → α → β) : Prop :=
  ∀ name arguments memory state, (host.call name arguments memory state).Keeps
    (fun _ state' => part state' = (note name arguments).foldl tell (part state)) fun _ => True

/-- What is told so far is told after the next call. -/
theorem Host.IsTold.noting {part : τ → β} {tell : β → α → β} (h : host.IsTold note part tell)
    {b : β} {s : τ × List α} (hs : part s.1 = s.2.foldl tell b) (name : η) (arguments : List Word)
    (memory : Memory) : ((host.noting note).call name arguments memory s).Keeps
      (fun _ s' => part s'.1 = s'.2.foldl tell b) fun _ => True := by
  have hcall := h name arguments memory s.1
  have htold : ∀ state, part state = (note name arguments).foldl tell (part s.1) →
      part state = (s.2 ++ note name arguments).foldl tell b := by
    intro state hstate
    rw [List.foldl_append, ← hs, hstate]
  rw [Host.noting]
  dsimp only
  cases hanswer : host.call name arguments memory s.1 with
  | returned results memory' state =>
    rw [hanswer] at hcall
    exact htold state hcall
  | raised signal memory' state =>
    rw [hanswer] at hcall
    exact ⟨htold state hcall.1, trivial⟩

/-- The notes of a call tell what it does to a part of the host's state,
whether or not it ends in time. -/
theorem Linkage.call_noting {part : τ → β} {tell : β → α → β} (h : l.host.IsTold note part tell)
    (steps : Nat) (ref : FuncRef η) (arguments : List Word) (memory : Memory) (state : τ) :
    part (l.call steps ref arguments memory state).state
      = ((l.withHost (l.host.noting note)).call steps ref arguments memory
          (state, [])).state.2.foldl tell (part state) := by
  have hkeeps : (l.withHost (l.host.noting note)).Keeps
      (fun _ s => part s.1 = s.2.foldl tell (part state)) fun _ => True :=
    ⟨fun name _ arguments memory _ hs => h.noting hs name arguments memory, fun _ _ _ _ hs => hs⟩
  have hsame := call_withHost (Host.projects_noting l.host note) steps ref arguments
    memory (state, [])
  rw [hsame]
  exact (keeps_call hkeeps rfl (fun name _ => h.noting rfl name arguments memory) steps).1

end MutationAnalysis.Wasm
