/-
Probes come in pairs.

Where the host writes down what its probes are told (`IsWatched`), the functions under way are
those that were entered and not left yet: a call enters a function, a return leaves the
innermost one, and nothing else tells a probe anything.  So what is written down during a call
that returns is the entry of the function, the balanced events of the calls that it makes, and
its return, under one number.  A call that ends otherwise leaves functions under way, the
outermost of which is the one that was called.

* `watched_step`: what a step writes down;
* `IsWatched.endsFrom`: what a call writes down that ends.
-/
import MutationAnalysis.Proofs.Interpreter.Probing
import MutationAnalysis.Proofs.Trace.Balance
import MutationAnalysis.Proofs.Wasm.Preservation

namespace MutationAnalysis.Interpreter

open Wasm Recorder

variable {η σ ρ : Type}

/-- The probes of an environment are told the number of the function, and all that they are told,
and nothing else, is written down by the host. -/
structure IsWatched (env : Environment η σ) (told : σ → List Event) (number : Nat → Nat → Nat) :
    Prop where
  valid : ∀ p ∈ env.programs, p.IsValid
  call : ∀ (a : Nat) (name : η), env.table[a]? = some (some (.host name)) →
    ∀ arguments memory s,
      (env.host.call name arguments memory s).Keeps (fun _ s' => told s' = told s) fun _ => True
  enter : ∀ (home index : Nat) (f : Function), env.function? home index = some f → ∀ memory s, ∃ s',
    env.runProbe Probes.enter home index memory s = .inl (memory, s') ∧
      told s' = told s ++ [.enter (number home index)]
  leave : ∀ (home index : Nat) (f : Function), env.function? home index = some f → ∀ memory s, ∃ s',
    env.runProbe Probes.leave home index memory s = .inl (memory, s') ∧
      told s' = told s ++ [.leave (number home index)]

/-- The numbers of the functions under way, the innermost first. -/
def numbers (number : Nat → Nat → Nat) (a : Activation ρ)
    (callers : List (Activation ρ × Option Register)) : List Nat :=
  number a.home a.index :: callers.map fun c => number c.1.home c.1.index

/-- All entries are under numbers of functions that there are. -/
def Numbered (env : Environment η σ) (number : Nat → Nat → Nat) (events : List Event) : Prop :=
  ∀ k, .enter k ∈ events → ∃ home index f, env.function? home index = some f ∧ number home index = k

/-- Since something was written down, functions of the given numbers were entered, and not left. -/
def Wrote (env : Environment η σ) (told : σ → List Event) (number : Nat → Nat → Nat)
    (before : List Event) (ks : List Nat) (s : σ) : Prop :=
  ∃ events, told s = before ++ events ∧ Pending ks events ∧ Numbered env number events

/-- The functions under way, the outermost of which has the given number, are those that were
entered since something was written down, and not left. -/
inductive Watches (env : Environment η σ) (told : σ → List Event) (number : Nat → Nat → Nat)
    (before : List Event) (outermost : Nat) : State ρ σ → Prop
  | mk {a : Activation ρ} {callers : List (Activation ρ × Option Register)}
      {memory : Memory} {s : σ} (ha : a.IsIn env) (hcallers : ∀ c ∈ callers, c.1.IsIn env)
      (hwrote : Wrote env told number before (numbers number a callers) s)
      (hlast : (numbers number a callers).getLast? = some outermost) :
      Watches env told number before outermost ⟨a, callers, memory, s⟩

/-- What comes next is watched, or it is the end: the outermost function returned after a whole
call, or it did not return and is still under way. -/
inductive KeepsWatch (env : Environment η σ) (told : σ → List Event) (number : Nat → Nat → Nat)
    (before : List Event) (outermost : Nat) : Next ρ σ → Prop
  | go {s : State ρ σ} (h : Watches env told number before outermost s) :
      KeepsWatch env told number before outermost (.inl s)
  | returned {results : List Word} {memory : Memory} {s : σ} {events : List Event}
      (htold : told s = before ++ events) (h : IsCall outermost events)
      (hnumbered : Numbered env number events) :
      KeepsWatch env told number before outermost (.inr (.returned results, memory, s))
  | stopped {e : Ending} {memory : Memory} {s : σ} {ks : List Nat}
      (he : ∀ results, e ≠ .returned results)
      (hwrote : Wrote env told number before ks s) (hlast : ks.getLast? = some outermost) :
      KeepsWatch env told number before outermost (.inr (e, memory, s))

variable {env : Environment η σ} {told : σ → List Event} {number : Nat → Nat → Nat}
  {before : List Event} {outermost : Nat} {memory : Memory} {s : σ} {file : RegisterFile ρ}
  {a : Activation ρ} {callers : List (Activation ρ × Option Register)} {rest : List Instruction}
  {home index : Nat} {f : Function} {events : List Event} {k : Nat} {ks : List Nat}

theorem Numbered.leave (h : Numbered env number events) (k : Nat) :
    Numbered env number (events ++ [.leave k]) := by
  intro j hj
  rcases List.mem_append.mp hj with hj | hj
  · exact h j hj
  · cases List.mem_singleton.mp hj

/-- One more function is under way. -/
theorem Wrote.enter (h : Wrote env told number before ks s) (hf : env.function? home index = some f)
    {s' : σ} (htold : told s' = told s ++ [.enter (number home index)]) :
    Wrote env told number before (number home index :: ks) s' := by
  obtain ⟨events, hs, hpending, hnumbered⟩ := h
  refine ⟨events ++ [.enter (number home index)], ?_, .enter hpending .nil, fun j hj => ?_⟩
  · rw [htold, hs, List.append_assoc]
  · rcases List.mem_append.mp hj with hj | hj
    · exact hnumbered j hj
    · exact ⟨home, index, f, hf, (Event.enter.inj (List.mem_singleton.mp hj)).symm⟩

/-- Nothing more is written down. -/
theorem Wrote.of_told_eq (h : Wrote env told number before ks s) {s' : σ}
    (htold : told s' = told s) :
    Wrote env told number before ks s' := by
  obtain ⟨events, hs, hevents⟩ := h
  exact ⟨events, htold.trans hs, hevents⟩

theorem numbers_cons (a : Activation ρ) (caller : Activation ρ × Option Register) :
    numbers number a (caller :: callers)
      = number a.home a.index :: numbers number caller.1 callers := rfl

/-- A function that starts is the innermost one under way. -/
theorem watched_start (h : IsWatched env told number) (hf : env.function? home index = some f)
    (hcallers : ∀ c ∈ callers, c.1.IsIn env)
    (hwrote : Wrote env told number before (callers.map fun c => number c.1.home c.1.index) s)
    (hlast : (number home index :: callers.map fun c => number c.1.home c.1.index).getLast?
      = some outermost) (arguments : List Word) (memory : Memory) :
    KeepsWatch env told number before outermost
      (env.start file home index f arguments callers memory s) := by
  obtain ⟨s', hprobe, hs'⟩ := h.enter home index f hf memory s
  rw [Environment.start, hprobe]
  dsimp only
  have hwrote' := hwrote.enter hf hs'
  cases hblock : (file.first f (file.start f arguments)).bind (f.blocks[·]?) with
  | none => exact .stopped (by simp) hwrote' hlast
  | some block =>
    obtain ⟨k, -, hk⟩ := Option.bind_eq_some_iff.mp hblock
    refine .go (.mk ⟨hf, fun i hi => ?_⟩ hcallers hwrote' hlast)
    exact List.mem_flatMap.mpr ⟨block, List.mem_of_getElem? hk, hi⟩

section

variable (h : IsWatched env told number) (ha : a.IsIn env) (hcallers : ∀ c ∈ callers, c.1.IsIn env)
  (hwrote : Wrote env told number before (numbers number a callers) s)
  (hlast : (numbers number a callers).getLast? = some outermost)

include h ha hcallers hwrote hlast

theorem watched_call (hrest : ∀ i ∈ rest, i ∈ a.rest) {ref : FuncRef η}
    (hhost : ∀ name, ref = .host name → ∃ k : Nat, env.table[k]? = some (some (.host name)))
    (arguments : List Word) (dest : Option Register) (memory : Memory) :
    KeepsWatch env told number before outermost
      (env.call file ⟨a, callers, memory, s⟩ ref arguments dest rest) := by
  cases ref with
  | host name =>
    obtain ⟨k, hk⟩ := hhost name rfl
    rw [Environment.call]
    dsimp only
    -- a function of the host that the table offers tells the probes nothing
    have hcall := h.call k name hk arguments memory s
    cases hanswer : env.host.call name arguments memory s with
    | returned results memory' s' =>
      rw [hanswer] at hcall
      exact .go (.mk (ha.go _ (.inl hrest)) hcallers (hwrote.of_told_eq hcall) hlast)
    | raised signal memory' s' =>
      rw [hanswer] at hcall
      exact .stopped (by simp) (hwrote.of_told_eq hcall.1) hlast
  | defined home index =>
    cases hf : env.function? home index with
    | none =>
      rw [Environment.call]
      simp only [hf]
      exact .stopped (by simp) hwrote hlast
    | some f =>
      rw [call_defined hf]
      have hcallers' : ∀ c
          ∈ (({ a with rest }, dest) :: callers : List (Activation ρ × Option Register)),
          c.1.IsIn env := List.forall_mem_cons.mpr ⟨ha.go a.registers (.inl hrest), hcallers⟩
      rw [Environment.enter]
      split
      · exact watched_start h hf hcallers' hwrote (List.getLast?_cons_cons.trans hlast)
          arguments memory
      · exact .stopped (by simp) hwrote hlast

theorem watched_callAddress (hrest : ∀ i ∈ rest, i ∈ a.rest) (type : FuncType) (address : Word)
    (arguments : List Word) (dest : Option Register) (memory : Memory) :
    KeepsWatch env told number before outermost
      (env.callAddress file ⟨a, callers, memory, s⟩ type address arguments dest rest) := by
  rw [Environment.callAddress]
  cases hentry : env.table[address.toNat]? with
  | none => exact .stopped (by simp) hwrote hlast
  | some entry =>
    cases entry with
    | none => exact .stopped (by simp) hwrote hlast
    | some ref =>
      dsimp only
      split
      · exact watched_call h ha hcallers hwrote hlast hrest (fun name hname => ⟨_, hname ▸ hentry⟩)
          arguments dest memory
      · exact .stopped (by simp) hwrote hlast

theorem watched_callName (hrest : ∀ i ∈ rest, i ∈ a.rest) (name : String) (arguments : List Word)
    (dest : Option Register) (memory : Memory) :
    KeepsWatch env told number before outermost
      (env.callName file ⟨a, callers, memory, s⟩ name arguments dest rest) := by
  rw [Environment.callName]
  split
  · exact .stopped (by simp) hwrote hlast
  · split
    · exact watched_call h ha hcallers hwrote hlast hrest (by simp) arguments dest memory
    · exact watched_callAddress h ha hcallers hwrote hlast hrest _ _ arguments dest memory
    · exact .stopped (by simp) hwrote hlast

/-- The function that returns is the innermost one under way. -/
theorem watched_giveBack (results : List Word) (memory : Memory) :
    KeepsWatch env told number before outermost
      (env.giveBack file ⟨a, callers, memory, s⟩ results) := by
  obtain ⟨events, htold, hpending, hnumbered⟩ := hwrote
  obtain ⟨s', hprobe, hs'⟩ := h.leave a.home a.index a.function ha.function memory s
  have htold' : told s' = before ++ (events ++ [.leave (number a.home a.index)]) := by
    rw [hs', htold, List.append_assoc]
  have hnumbered' := hnumbered.leave (number a.home a.index)
  rw [Environment.giveBack]
  simp only [hprobe]
  cases callers with
  | nil =>
    obtain rfl : number a.home a.index = outermost := Option.some.inj hlast
    exact .returned htold' hpending.isCall hnumbered'
  | cons caller callers =>
    rw [List.forall_mem_cons] at hcallers
    rw [numbers_cons] at hpending hlast
    exact .go (.mk (hcallers.1.go _ (.inl fun i hi => hi)) hcallers.2
      ⟨_, htold', hpending.leave, hnumbered'⟩ (List.getLast?_cons_cons.symm.trans hlast))

end

/-- What a step tells the probes. -/
theorem watched_step (h : IsWatched env told number) {x : State ρ σ}
    (hx : Watches env told number before outermost x) :
    KeepsWatch env told number before outermost (env.step file x) := by
  obtain @⟨a, callers, memory, s, ha, hcallers, hwrote, hlast⟩ := hx
  obtain ⟨p, hp, hfunction⟩ := function?_eq_some.mp ha.function
  have hvalid := h.valid p (List.mem_of_getElem? hp)
  rw [Environment.step]
  dsimp only
  cases hrest : a.rest with
  | nil => exact .stopped (by simp) hwrote hlast
  | cons i rest =>
    dsimp only
    have hi : i ∈ a.function.instructions := ha.mem i (by simp [hrest])
    have hfits := (hvalid.functions _ (List.mem_of_getElem? hfunction)).fits hi
    have hsub : ∀ j ∈ rest, j ∈ a.rest := fun j hj => by
      rw [hrest]
      exact List.mem_cons_of_mem i hj
    -- an instruction is alike to itself, which says what it may change
    have halike := alike_refl file a.function
    rcases hfits.control with ⟨hcall, hret⟩ | ⟨dest, callee, arguments, location, sig, rfl, -, -⟩ |
      ⟨dest, cell, arguments, location, rfl⟩ | hret
    · have hstays : StaysAlike a.function (fun x y => y = x) a a callers callers s s rest
          (env.instructionStep file ⟨a, callers, memory, s⟩ i rest)
          (env.instructionStep file ⟨a, callers, memory, s⟩ i rest) :=
        halike.instruction rfl rfl rfl env env hfits (fun _ _ => trivial) hcall hret rest
      generalize env.instructionStep file ⟨a, callers, memory, s⟩ i rest = next at hstays ⊢
      cases hstays with
      | halt he => exact .stopped he hwrote hlast
      | go _ hor =>
        refine .go (.mk (ha.go _ ?_) hcallers hwrote hlast)
        rcases hor with rfl | hblock
        · exact .inl hsub
        · exact .inr hblock
    · show KeepsWatch env told number before outermost (State.withValues _ _ _ _)
      rw [State.withValues]
      split
      · exact .stopped (by simp) hwrote hlast
      · exact watched_callName h ha hcallers hwrote hlast hsub callee _ dest memory
    · show KeepsWatch env told number before outermost (State.withValues _ _ _ _)
      rw [State.withValues]
      split
      · exact .stopped (by simp) hwrote hlast
      · exact watched_callAddress h ha hcallers hwrote hlast hsub _ _ _ dest memory
    · simp only [Environment.instructionStep, hret, State.withValues]
      split
      · exact .stopped (by simp) hwrote hlast
      · exact watched_giveBack h ha hcallers hwrote hlast _ memory

/-- What is written down until the end is a whole call of the outermost function, or
what leads to where it stopped. -/
theorem watched_ends (h : IsWatched env told number) {x : State ρ σ}
    (hx : Watches env told number before outermost x) {n : Nat} {r : Halt σ}
    (hends : Ends (env.step file) n x r) :
    KeepsWatch (ρ := ρ) env told number before outermost (.inr r) := by
  induction hends with
  | halt hstep => exact hstep ▸ watched_step h hx
  | next hstep _ ih =>
    have hkeeps : KeepsWatch env told number before outermost (env.step file _) := watched_step h hx
    rw [hstep] at hkeeps
    cases hkeeps with
    | go hx' => exact ih hx'

/-- What the probes are told from the start of a function to its end is a whole
call, under the number of the function, if it returns.  Else functions are under
way, the outermost of which it is. -/
theorem IsWatched.endsFrom (h : IsWatched env told number) (hf : env.function? home index = some f)
    {arguments : List Word} {r : Halt σ}
    (hends : env.EndsFrom file (env.start file home index f arguments [] memory s) r) :
    ∃ events, told r.2.2 = told s ++ events ∧ Numbered env number events ∧
      ((∃ results, r.1 = .returned results) ∧ IsCall (number home index) events ∨
        (∀ results, r.1 ≠ .returned results) ∧
          ∃ ks, Pending ks events ∧ ks.getLast? = some (number home index)) := by
  -- a function is under way from its start, and what steps keep holds where they end
  have hstart : KeepsWatch env told number (told s) (number home index)
      (env.start file home index f arguments [] memory s) := by
    have hnone : Wrote env told number (told s) [] s :=
      ⟨[], (List.append_nil _).symm, .nil, fun k hk => absurd hk List.not_mem_nil⟩
    have hcallers : ∀ c ∈ ([] : List (Activation ρ × Option Register)), c.1.IsIn env := by simp
    exact watched_start h hf hcallers hnone rfl arguments memory
  have hend : KeepsWatch (ρ := ρ) env told number (told s) (number home index) (.inr r) := by
    generalize env.start file home index f arguments [] memory s = next at hstart hends
    cases next with
    | inl x =>
      obtain ⟨n, hn⟩ := hends
      cases hstart with
      | go hx => exact watched_ends h hx hn
    | inr r' =>
      obtain rfl : r' = r := hends
      exact hstart
  cases hend with
  | returned htold hcall hnumbered => exact ⟨_, htold, hnumbered, .inl ⟨⟨_, rfl⟩, hcall⟩⟩
  | stopped he hwrote hlast =>
    obtain ⟨events, htold, hpending, hnumbered⟩ := hwrote
    exact ⟨events, htold, hnumbered, .inr ⟨he, _, hpending, hlast⟩⟩

end MutationAnalysis.Interpreter
